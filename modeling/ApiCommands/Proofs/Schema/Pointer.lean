import ApiCommands.Proofs.Schema.Resolution

namespace ApiCommands.Schema

/-!
# Pointers to components

Every component can be pointed at: in the pointer a tilde and a slash of its name are escaped, and
the two passes that undo this give the name back. So a pointer is of one component, and a node with
the pointer resolves to what the component resolves to.
-/

/-- What stands for a character of a name in a pointer. -/
def escapeChar (c : Char) : List Char :=
  if c = '~' then ['~', '0'] else if c = '/' then ['~', '1'] else [c]

def escape (name : List Char) : List Char := name.flatMap escapeChar

/-- The reference that is written for the component of a name. -/
def pointer (name : String) : String := componentMark ++ String.ofList (escape name.toList)

/-- What is left to undo between the two passes: the slashes are back, the tildes not yet. -/
def escapeTildes (name : List Char) : List Char :=
  name.flatMap fun c => if c = '~' then ['~', '0'] else [c]

theorem unescape_cons_of_ne {c : Char} (h : c ≠ '~') (letter replacement : Char)
    (rest : List Char) :
    unescape letter replacement (c :: rest) = c :: unescape letter replacement rest := by
  rw [unescape]
  rintro c' rest' rfl
  exact (h rfl).elim

theorem unescape_slashes (name : List Char) :
    unescape '1' '/' (escape name) = escapeTildes name := by
  induction name with
  | nil => rfl
  | cons c name ih =>
      rw [escape, escapeTildes, List.flatMap_cons, List.flatMap_cons, escapeChar]
      by_cases htilde : c = '~'
      · rw [if_pos htilde, if_pos htilde]
        -- The letter after the tilde is not the one of this pass, and is no tilde itself.
        change unescape '1' '/' ('~' :: '0' :: escape name) = '~' :: '0' :: escapeTildes name
        rw [unescape, if_neg (by decide), unescape_cons_of_ne (by decide), ih]
      · rw [if_neg htilde, if_neg htilde]
        by_cases hslash : c = '/'
        · rw [if_pos hslash, hslash]
          change unescape '1' '/' ('~' :: '1' :: escape name) = '/' :: escapeTildes name
          rw [unescape, if_pos rfl, ih]
        · rw [if_neg hslash]
          change unescape '1' '/' (c :: escape name) = c :: escapeTildes name
          rw [unescape_cons_of_ne htilde, ih]

theorem unescape_tildes (name : List Char) : unescape '0' '~' (escapeTildes name) = name := by
  induction name with
  | nil => rfl
  | cons c name ih =>
      rw [escapeTildes, List.flatMap_cons]
      by_cases htilde : c = '~'
      · rw [if_pos htilde, htilde]
        change unescape '0' '~' ('~' :: '0' :: escapeTildes name) = '~' :: name
        rw [unescape, if_pos rfl, ih]
      · rw [if_neg htilde]
        change unescape '0' '~' (c :: escapeTildes name) = c :: name
        rw [unescape_cons_of_ne htilde, ih]

theorem slash_notMem_escape (name : List Char) : '/' ∉ escape name := by
  intro h
  obtain ⟨c, _, hc⟩ := List.mem_flatMap.mp h
  rw [escapeChar] at hc
  split at hc
  case isTrue => simp at hc
  case isFalse =>
    split at hc
    case isTrue => simp at hc
    case isFalse hslash => exact hslash (List.mem_singleton.mp hc).symm

theorem escape_ne_nil {name : List Char} (h : name ≠ []) : escape name ≠ [] := by
  obtain ⟨c, rest, rfl⟩ := List.exists_cons_of_ne_nil h
  rw [escape, List.flatMap_cons, escapeChar]
  split
  · simp
  · split <;> simp

theorem pointsAt_pointer {name : String} (hname : name ≠ "") : PointsAt (pointer name) name := by
  refine ⟨escape name.toList, by simp [pointer], ?_, slash_notMem_escape _, ?_⟩
  · exact escape_ne_nil (by simpa using hname)
  · rw [unescape_slashes, unescape_tildes]

theorem pointer_injective : Function.Injective pointer := by
  intro name name' h
  have hescape : escape name.toList = escape name'.toList := by
    simpa [pointer] using congrArg String.toList h
  apply String.toList_injective
  rw [← unescape_tildes name.toList, ← unescape_slashes, hescape, unescape_slashes,
    unescape_tildes]

theorem pending_of_reference {node : Node} {name : String}
    (h : node.reference = some (pointer name)) : node.pending = some (pointer name) := by
  refine Text.unlessEmpty_eq_some_iff.mpr ⟨h, fun hempty => ?_⟩
  have hlist := congrArg String.toList hempty
  simp [pointer, componentMark] at hlist

/-- A node that leads to another resolves to what the other one resolves to. -/
theorem LeadsTo.resolve_iff {components : Components} {node target n : Node}
    {step : String × String} (h : LeadsTo components node step target) :
    resolve components node = .ok n ↔ resolve components target = .ok n := by
  rw [resolve_eq_ok_iff, resolve_eq_ok_iff]
  refine and_congr_right fun hpending => ?_
  constructor
  · rintro ⟨steps, hchain⟩
    cases hchain with
    | here => cases hpending.symm.trans h.1
    | beyond hstep hrest =>
        obtain ⟨_, rfl⟩ := hstep.unique h
        exact ⟨_, hrest⟩
  · rintro ⟨steps, hchain⟩
    exact ⟨step :: steps, .beyond h hchain⟩

theorem toOption_eq_some_iff {ε α : Type} {x : Except ε α} {a : α} :
    x.toOption = some a ↔ x = .ok a := by
  cases x <;> simp [Except.toOption]

theorem LeadsTo.toOption_resolve {components : Components} {node target : Node}
    {step : String × String} (h : LeadsTo components node step target) :
    (resolve components node).toOption = (resolve components target).toOption := by
  refine Option.ext fun n => ?_
  rw [toOption_eq_some_iff, toOption_eq_some_iff]
  exact h.resolve_iff

/-- The pointer to a component is read as its name, no other name has this pointer, and a node with
this reference resolves to what the component resolves to, or to nothing as it does. -/
theorem resolve_pointer {name : String} (hname : name ≠ "") :
    componentName (pointer name) = some name ∧
    (∀ other, other ≠ name → pointer other ≠ pointer name) ∧
    ∀ (components : Components) (component node : Node),
      components.lookup name = some component → node.reference = some (pointer name) →
      (resolve components node).toOption = (resolve components component).toOption := by
  have hpoints := pointsAt_pointer hname
  refine ⟨componentName_eq_some_iff.mpr hpoints, ?_, ?_⟩
  · intro other hne heq
    exact hne (pointer_injective heq)
  · intro components component node hcomponent hreference
    have hstep : LeadsTo components node (pointer name, name) component :=
      ⟨pending_of_reference hreference, hpoints, hcomponent⟩
    exact hstep.toOption_resolve

/-- A name in which tildes stand before the letters of both escapes; once the component of this
name is a text, once references lead from it back to it. -/
theorem resolve_pointer_escaped :
    let node : Node := { reference := some "#/components/schemas/~01~00~1~0" }
    let text : Node := { typeName := "string" }
    let back : Node := { reference := some "#/components/schemas/b" }
    componentName "#/components/schemas/~01~00~1~0" = some "~1~0/~" ∧
    (∀ other, other ≠ "~1~0/~" → pointer other ≠ "#/components/schemas/~01~00~1~0") ∧
    (resolve [("~1~0/~", text)] node).toOption = (resolve [("~1~0/~", text)] text).toOption ∧
    (resolve [("b", node), ("~1~0/~", back)] node).toOption =
      (resolve [("b", node), ("~1~0/~", back)] back).toOption := by
  have hpointer : pointer "~1~0/~" = "#/components/schemas/~01~00~1~0" := by decide +kernel
  obtain ⟨hread, honly, hresolve⟩ := resolve_pointer (by decide : "~1~0/~" ≠ "")
  rw [hpointer] at hread honly hresolve
  exact ⟨hread, honly, hresolve _ _ _ rfl rfl, hresolve _ _ _ rfl rfl⟩

end ApiCommands.Schema
