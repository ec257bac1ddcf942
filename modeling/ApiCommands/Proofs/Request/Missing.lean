import ApiCommands.Proofs.Request.Substitution

namespace ApiCommands.Request

/-!
# Placeholders without a value

Placeholders are looked for again when the values have been put in. What is found then are those of
the template that have no value, unless the text of a placeholder is hidden in another one.
-/

open Text.Template

section Given

variable {given : List Given} {method template : String}

theorem prepare_eq_missing_iff (hmethod : isMethod (Text.asciiUpper method) = true)
    {name : String} :
    prepare method template given = .error (.misuse (.missingPathParam name)) ↔
      ∃ rest, names (fillPath template given) = name :: rest := by
  cases hnames : names (fillPath template given) with
  | nil => simp [prepare, hmethod, hnames]
  | cons missing rest => simp [prepare, hmethod, hnames]

/-- A missing path value is reported exactly when a placeholder has none, and the first such
placeholder is named. Otherwise a request is prepared, in which every placeholder has given way to
its value. -/
theorem prepare_reports_missing (hmethod : isMethod (Text.asciiUpper method) = true)
    (h : Plain template given) :
    ((∃ name, prepare method template given = .error (.misuse (.missingPathParam name))) ↔
      ∃ name ∈ names template, ¬HasPathValue given name) ∧
    (∀ name, prepare method template given = .error (.misuse (.missingPathParam name)) →
      ∃ before after, names template = before ++ name :: after ∧
        (∀ other ∈ before, HasPathValue given other) ∧ ¬HasPathValue given name) ∧
    ((∃ r, prepare method template given = .ok r) ↔
      ∀ name ∈ names template, HasPathValue given name) ∧
    ∀ r, prepare method template given = .ok r → ∃ path : String,
      Filled (IsPathText given) template.toList path.toList ∧ names path = [] ∧
        r.path = appendQuery path (queryOf given) := by
  have hleft := h.names_fillPath
  refine ⟨?_, fun name hname => ?_, ?_, fun r hr => ?_⟩
  · rw [← not_iff_not]
    calc
      _ ↔ names (fillPath template given) = [] := by
        simp only [prepare_eq_missing_iff hmethod]
        cases names (fillPath template given) <;> simp
      _ ↔ _ := by simp [hleft]
  · obtain ⟨rest, hrest⟩ := (prepare_eq_missing_iff hmethod).mp hname
    obtain ⟨before, after, hnames, hbefore, hmissing, _⟩ :=
      List.filter_eq_cons_iff.mp (hleft.symm.trans hrest)
    exact ⟨before, after, hnames, by simpa using hbefore, by simpa using hmissing⟩
  · rw [exists_prepare_iff hmethod, hleft]
    simp
  · exact ⟨fillPath template given, h.filled, names_eq_nil_of_prepare hr, path_of_prepare hr⟩

end Given

/-- A template in which the name of the first placeholder begins with a brace and the second has no
name. -/
def oddTemplate : String := "/\x7b\x7bx\x7d/\x7b\x7d/\x7by\x7d\x7bz\x7d\x7by\x7d"

def partGiven : List Given :=
  [⟨"\x7bx", .path, "\x7by\x7d"⟩, ⟨"y", .query, "1"⟩, ⟨"", .path, "2"⟩]

theorem prepare_reports_missing_odd :
    isMethod (Text.asciiUpper "pUt") = true ∧ Plain oddTemplate partGiven ∧
      (∃ name ∈ names oddTemplate, ¬HasPathValue partGiven name) ∧
      ∃ name, prepare "pUt" oddTemplate partGiven = .error (.misuse (.missingPathParam name)) := by
  have hmethod : isMethod (Text.asciiUpper "pUt") = true := by decide +kernel
  have hplain : Plain oddTemplate partGiven := ⟨by decide +kernel, by decide +kernel⟩
  have hmissing : ∃ name ∈ names oddTemplate, ¬HasPathValue partGiven name := by decide +kernel
  exact ⟨hmethod, hplain, hmissing, (prepare_reports_missing hmethod hplain).1.mpr hmissing⟩

example : (prepare "pUt" oddTemplate partGiven).map Prepared.path =
    .error (.misuse (.missingPathParam "y")) := by
  decide +kernel

/-- A placeholder that hides in another one is filled there, so a request goes out with a
placeholder that has no value, and one that has a value is missed under a name that the template
lacks. -/
theorem overlooks_hidden :
    ((∃ name ∈ names "/a/\x7ba\x7bb\x7d", ¬HasPathValue [⟨"b", .path, "1"⟩] name) ∧
      (prepare "GET" "/a/\x7ba\x7bb\x7d" [⟨"b", .path, "1"⟩]).map Prepared.path =
        .ok "/a/\x7ba1") ∧
    (∀ name ∈ names "/\x7bb\x7d/\x7b\x7bb\x7d\x7d",
      HasPathValue [⟨"b", .path, "1"⟩, ⟨"\x7bb", .path, "2"⟩] name) ∧
    (prepare "GET" "/\x7bb\x7d/\x7b\x7bb\x7d\x7d"
        [⟨"b", .path, "1"⟩, ⟨"\x7bb", .path, "2"⟩]).map Prepared.path =
      .error (.misuse (.missingPathParam "1")) := by
  decide +kernel

end ApiCommands.Request
