import ApiCommands.Text.Utf8

namespace ApiCommands

/-!
# The built-in document

The API document that is compiled when no other is named.
-/

namespace Source

def builtinLines : List String := [
  "\x7b",
  "  \"openapi\": \"3.1.0\",",
  "  \"info\": \x7b",
  "    \"title\": \"DevOps AI Toolkit REST API\",",
  "    \"description\": \"REST API for the DevOps AI Toolkit tools, Kubernetes resource " ++
    "queries and knowledge base.\",",
  "    \"version\": \"0.9.0\"",
  "  \x7d,",
  "  \"servers\": [",
  "    \x7b \"url\": \"http://localhost:3456\" \x7d",
  "  ],",
  "  \"paths\": \x7b",
  "    \"/healthz\": \x7b",
  "      \"get\": \x7b",
  "        \"summary\": \"Liveness probe\",",
  "        \"responses\": \x7b \"200\": \x7b \"description\": \"Server is alive\" \x7d \x7d",
  "      \x7d",
  "    \x7d,",
  "    \"/api/v1/openapi\": \x7b",
  "      \"get\": \x7b",
  "        \"summary\": \"Get the OpenAPI specification\",",
  "        \"responses\": \x7b \"200\": \x7b \"description\": \"This document\" \x7d \x7d",
  "      \x7d",
  "    \x7d,",
  "    \"/api/v1/tools\": \x7b",
  "      \"get\": \x7b",
  "        \"summary\": \"List available tools\",",
  "        \"parameters\": [",
  "          \x7b \"name\": \"category\", \"in\": \"query\", \"schema\": \x7b \"type\": " ++
    "\"string\" \x7d \x7d",
  "        ],",
  "        \"responses\": \x7b \"200\": \x7b \"description\": \"Tool catalog\" \x7d \x7d",
  "      \x7d",
  "    \x7d,",
  "    \"/api/v1/tools/\x7btoolName\x7d\": \x7b",
  "      \"post\": \x7b",
  "        \"summary\": \"Execute a tool by name\",",
  "        \"parameters\": [",
  "          \x7b \"name\": \"toolName\", \"in\": \"path\", \"required\": true, " ++
    "\"schema\": \x7b \"type\": \"string\" \x7d \x7d",
  "        ],",
  "        \"requestBody\": \x7b",
  "          \"content\": \x7b \"application/json\": \x7b \"schema\": \x7b \"type\": " ++
    "\"object\" \x7d \x7d \x7d",
  "        \x7d,",
  "        \"responses\": \x7b \"200\": \x7b \"description\": \"Tool result\" \x7d \x7d",
  "      \x7d",
  "    \x7d,",
  "    \"/api/v1/tools/query\": \x7b",
  "      \"post\": \x7b",
  "        \"summary\": \"Query cluster capabilities and resources\",",
  "        \"description\": \"Ask a natural language question about the cluster. The " ++
    "answer is grounded in the live cluster state and the capability catalog.\",",
  "        \"requestBody\": \x7b",
  "          \"required\": true,",
  "          \"content\": \x7b \"application/json\": \x7b \"schema\": \x7b \"$ref\": " ++
    "\"#/components/schemas/QueryRequest\" \x7d \x7d \x7d",
  "        \x7d,",
  "        \"responses\": \x7b \"200\": \x7b \"description\": \"Query answer\" \x7d \x7d",
  "      \x7d",
  "    \x7d,",
  "    \"/api/v1/tools/recommend\": \x7b",
  "      \"post\": \x7b",
  "        \"summary\": \"Recommend deployment solutions\",",
  "        \"description\": \"Describe what should be deployed and receive ranked " ++
    "solutions. Continue the workflow with the returned solution identifiers.\",",
  "        \"requestBody\": \x7b",
  "          \"required\": true,",
  "          \"content\": \x7b \"application/json\": \x7b \"schema\": \x7b \"$ref\": " ++
    "\"#/components/schemas/RecommendRequest\" \x7d \x7d \x7d",
  "        \x7d,",
  "        \"responses\": \x7b \"200\": \x7b \"description\": \"Recommendation workflow " ++
    "step\" \x7d \x7d",
  "      \x7d",
  "    \x7d,",
  "    \"/api/v1/tools/remediate\": \x7b",
  "      \"post\": \x7b",
  "        \"summary\": \"Investigate and remediate cluster issues\",",
  "        \"description\": \"Analyze a reported issue, identify the root cause and " ++
    "propose or execute a fix.\",",
  "        \"requestBody\": \x7b",
  "          \"required\": true,",
  "          \"content\": \x7b \"application/json\": \x7b \"schema\": \x7b \"$ref\": " ++
    "\"#/components/schemas/RemediateRequest\" \x7d \x7d \x7d",
  "        \x7d,",
  "        \"responses\": \x7b \"200\": \x7b \"description\": \"Remediation analysis\" \x7d \x7d",
  "      \x7d",
  "    \x7d,",
  "    \"/api/v1/tools/operate\": \x7b",
  "      \"post\": \x7b",
  "        \"summary\": \"Perform day-2 operations\",",
  "        \"description\": \"Update, scale or reconfigure existing workloads using " ++
    "natural language intents.\",",
  "        \"requestBody\": \x7b",
  "          \"required\": true,",
  "          \"content\": \x7b \"application/json\": \x7b \"schema\": \x7b \"$ref\": " ++
    "\"#/components/schemas/OperateRequest\" \x7d \x7d \x7d",
  "        \x7d,",
  "        \"responses\": \x7b \"200\": \x7b \"description\": \"Operation proposal\" \x7d \x7d",
  "      \x7d",
  "    \x7d,",
  "    \"/api/v1/tools/manageOrgData\": \x7b",
  "      \"post\": \x7b",
  "        \"summary\": \"Manage organizational patterns, policies and capabilities\",",
  "        \"requestBody\": \x7b",
  "          \"required\": true,",
  "          \"content\": \x7b \"application/json\": \x7b \"schema\": \x7b \"$ref\": " ++
    "\"#/components/schemas/ManageOrgDataRequest\" \x7d \x7d \x7d",
  "        \x7d,",
  "        \"responses\": \x7b \"200\": \x7b \"description\": \"Operation result\" \x7d \x7d",
  "      \x7d",
  "    \x7d,",
  "    \"/api/v1/tools/manageKnowledge\": \x7b",
  "      \"post\": \x7b",
  "        \"summary\": \"Ingest and manage knowledge base documents\",",
  "        \"requestBody\": \x7b",
  "          \"required\": true,",
  "          \"content\": \x7b \"application/json\": \x7b \"schema\": \x7b \"$ref\": " ++
    "\"#/components/schemas/ManageKnowledgeRequest\" \x7d \x7d \x7d",
  "        \x7d,",
  "        \"responses\": \x7b \"200\": \x7b \"description\": \"Operation result\" \x7d \x7d",
  "      \x7d",
  "    \x7d,",
  "    \"/api/v1/tools/version\": \x7b",
  "      \"post\": \x7b",
  "        \"summary\": \"Show server version and health\",",
  "        \"description\": \"Report server version together with the status of its " ++
    "dependencies.\",",
  "        \"requestBody\": \x7b",
  "          \"content\": \x7b \"application/json\": \x7b \"schema\": \x7b \"$ref\": " ++
    "\"#/components/schemas/versionRequest\" \x7d \x7d \x7d",
  "        \x7d,",
  "        \"responses\": \x7b \"200\": \x7b \"description\": \"Version report\" \x7d \x7d",
  "      \x7d",
  "    \x7d,",
  "    \"/api/v1/resources\": \x7b",
  "      \"get\": \x7b",
  "        \"summary\": \"List cluster resources of a kind\",",
  "        \"parameters\": [",
  "          \x7b \"name\": \"kind\", \"in\": \"query\", \"required\": true, " ++
    "\"description\": \"Resource kind, e.g. Pod\", \"schema\": \x7b \"type\": \"string\" " ++
    "\x7d \x7d,",
  "          \x7b \"name\": \"apiVersion\", \"in\": \"query\", \"description\": \"API " ++
    "version of the kind, e.g. apps/v1\", \"schema\": \x7b \"type\": \"string\" \x7d \x7d,",
  "          \x7b \"name\": \"namespace\", \"in\": \"query\", \"description\": " ++
    "\"Namespace to list from (all namespaces when omitted)\", \"schema\": \x7b \"type\": " ++
    "\"string\" \x7d \x7d,",
  "          \x7b \"name\": \"limit\", \"in\": \"query\", \"description\": \"Maximum " ++
    "number of items\", \"schema\": \x7b \"type\": [\"integer\", \"null\"] \x7d \x7d",
  "        ],",
  "        \"responses\": \x7b \"200\": \x7b \"description\": \"Resources\" \x7d \x7d",
  "      \x7d",
  "    \x7d,",
  "    \"/api/v1/resources/kinds\": \x7b",
  "      \"get\": \x7b",
  "        \"summary\": \"List resource kinds available in the cluster\",",
  "        \"parameters\": [",
  "          \x7b \"name\": \"namespace\", \"in\": \"query\", \"description\": \"Only " ++
    "count kinds present in this namespace\", \"schema\": \x7b \"type\": \"string\" \x7d " ++
    "\x7d",
  "        ],",
  "        \"responses\": \x7b \"200\": \x7b \"description\": \"Resource kinds\" \x7d \x7d",
  "      \x7d",
  "    \x7d,",
  "    \"/api/v1/resources/search\": \x7b",
  "      \"get\": \x7b",
  "        \"summary\": \"Search resources semantically\",",
  "        \"parameters\": [",
  "          \x7b \"name\": \"q\", \"in\": \"query\", \"required\": true, " ++
    "\"description\": \"Search text\", \"schema\": \x7b \"type\": \"string\" \x7d \x7d,",
  "          \x7b \"name\": \"limit\", \"in\": \"query\", \"schema\": \x7b \"type\": " ++
    "\"integer\" \x7d \x7d",
  "        ],",
  "        \"responses\": \x7b \"200\": \x7b \"description\": \"Search hits\" \x7d \x7d",
  "      \x7d",
  "    \x7d,",
  "    \"/api/v1/resource\": \x7b",
  "      \"get\": \x7b",
  "        \"summary\": \"Get a single resource\",",
  "        \"parameters\": [",
  "          \x7b \"name\": \"kind\", \"in\": \"query\", \"required\": true, \"schema\": " ++
    "\x7b \"type\": \"string\" \x7d \x7d,",
  "          \x7b \"name\": \"apiVersion\", \"in\": \"query\", \"required\": true, " ++
    "\"schema\": \x7b \"type\": \"string\" \x7d \x7d,",
  "          \x7b \"name\": \"name\", \"in\": \"query\", \"required\": true, \"schema\": " ++
    "\x7b \"type\": \"string\" \x7d \x7d,",
  "          \x7b \"name\": \"namespace\", \"in\": \"query\", \"schema\": \x7b \"type\": " ++
    "\"string\" \x7d \x7d",
  "        ],",
  "        \"responses\": \x7b \"200\": \x7b \"description\": \"Resource manifest\" \x7d \x7d",
  "      \x7d",
  "    \x7d,",
  "    \"/api/v1/namespaces\": \x7b",
  "      \"get\": \x7b",
  "        \"summary\": \"List namespaces\",",
  "        \"responses\": \x7b \"200\": \x7b \"description\": \"Namespaces\" \x7d \x7d",
  "      \x7d",
  "    \x7d,",
  "    \"/api/v1/events\": \x7b",
  "      \"get\": \x7b",
  "        \"summary\": \"List events for a resource\",",
  "        \"parameters\": [",
  "          \x7b \"name\": \"name\", \"in\": \"query\", \"required\": true, \"schema\": " ++
    "\x7b \"type\": \"string\" \x7d \x7d,",
  "          \x7b \"name\": \"kind\", \"in\": \"query\", \"required\": true, \"schema\": " ++
    "\x7b \"type\": \"string\" \x7d \x7d,",
  "          \x7b \"name\": \"namespace\", \"in\": \"query\", \"schema\": \x7b \"type\": " ++
    "\"string\" \x7d \x7d",
  "        ],",
  "        \"responses\": \x7b \"200\": \x7b \"description\": \"Events\" \x7d \x7d",
  "      \x7d",
  "    \x7d,",
  "    \"/api/v1/logs\": \x7b",
  "      \"get\": \x7b",
  "        \"summary\": \"Fetch pod logs\",",
  "        \"parameters\": [",
  "          \x7b \"name\": \"name\", \"in\": \"query\", \"required\": true, " ++
    "\"description\": \"Pod name\", \"schema\": \x7b \"type\": \"string\" \x7d \x7d,",
  "          \x7b \"name\": \"namespace\", \"in\": \"query\", \"required\": true, " ++
    "\"schema\": \x7b \"type\": \"string\" \x7d \x7d,",
  "          \x7b \"name\": \"container\", \"in\": \"query\", \"schema\": \x7b \"type\": " ++
    "\"string\" \x7d \x7d,",
  "          \x7b \"name\": \"tailLines\", \"in\": \"query\", \"description\": \"Number " ++
    "of trailing lines\", \"schema\": \x7b \"type\": \"integer\" \x7d \x7d,",
  "          \x7b \"name\": \"previous\", \"in\": \"query\", \"description\": \"Logs of " ++
    "the previous container instance\", \"schema\": \x7b \"type\": \"boolean\" \x7d \x7d",
  "        ],",
  "        \"responses\": \x7b \"200\": \x7b \"description\": \"Log lines\" \x7d \x7d",
  "      \x7d",
  "    \x7d,",
  "    \"/api/v1/visualize/\x7bsessionId\x7d\": \x7b",
  "      \"get\": \x7b",
  "        \"summary\": \"Visualize a workflow session\",",
  "        \"parameters\": [",
  "          \x7b \"name\": \"sessionId\", \"in\": \"path\", \"required\": true, " ++
    "\"description\": \"Session identifier\", \"schema\": \x7b \"type\": \"string\" \x7d " ++
    "\x7d,",
  "          \x7b \"name\": \"reload\", \"in\": \"query\", \"description\": \"Regenerate " ++
    "the visualization\", \"schema\": \x7b \"type\": \"boolean\" \x7d \x7d",
  "        ],",
  "        \"responses\": \x7b \"200\": \x7b \"description\": \"Visualization\" \x7d \x7d",
  "      \x7d",
  "    \x7d,",
  "    \"/api/v1/knowledge/ask\": \x7b",
  "      \"post\": \x7b",
  "        \"summary\": \"Ask the knowledge base\",",
  "        \"requestBody\": \x7b",
  "          \"required\": true,",
  "          \"content\": \x7b",
  "            \"application/json\": \x7b",
  "              \"schema\": \x7b",
  "                \"type\": \"object\",",
  "                \"required\": [\"query\"],",
  "                \"properties\": \x7b",
  "                  \"query\": \x7b \"type\": \"string\", \"description\": \"Question to " ++
    "answer\" \x7d,",
  "                  \"limit\": \x7b \"type\": \"integer\", \"description\": \"Number of " ++
    "chunks to consider\" \x7d,",
  "                  \"uriFilter\": \x7b \"type\": [\"string\", \"null\"], " ++
    "\"description\": \"Only use documents under this URI\" \x7d",
  "                \x7d",
  "              \x7d",
  "            \x7d",
  "          \x7d",
  "        \x7d,",
  "        \"responses\": \x7b \"200\": \x7b \"description\": \"Answer with sources\" \x7d \x7d",
  "      \x7d",
  "    \x7d,",
  "    \"/api/v1/knowledge/source/\x7bsourceIdentifier\x7d\": \x7b",
  "      \"delete\": \x7b",
  "        \"summary\": \"Delete all chunks of a knowledge source\",",
  "        \"parameters\": [",
  "          \x7b \"name\": \"sourceIdentifier\", \"in\": \"path\", \"required\": true, " ++
    "\"description\": \"Source identifier (usually the document URI)\", \"schema\": \x7b " ++
    "\"type\": \"string\" \x7d \x7d",
  "        ],",
  "        \"responses\": \x7b \"200\": \x7b \"description\": \"Deletion report\" \x7d \x7d",
  "      \x7d",
  "    \x7d,",
  "    \"/api/v1/prompts\": \x7b",
  "      \"get\": \x7b",
  "        \"summary\": \"List prompts\",",
  "        \"responses\": \x7b \"200\": \x7b \"description\": \"Prompts\" \x7d \x7d",
  "      \x7d",
  "    \x7d,",
  "    \"/api/v1/prompts/\x7bpromptName\x7d\": \x7b",
  "      \"post\": \x7b",
  "        \"summary\": \"Render a prompt\",",
  "        \"parameters\": [",
  "          \x7b \"name\": \"promptName\", \"in\": \"path\", \"required\": true, " ++
    "\"schema\": \x7b \"type\": \"string\" \x7d \x7d",
  "        ],",
  "        \"responses\": \x7b \"200\": \x7b \"description\": \"Rendered prompt\" \x7d \x7d",
  "      \x7d",
  "    \x7d",
  "  \x7d,",
  "  \"components\": \x7b",
  "    \"schemas\": \x7b",
  "      \"QueryRequest\": \x7b",
  "        \"type\": \"object\",",
  "        \"required\": [\"intent\"],",
  "        \"properties\": \x7b",
  "          \"intent\": \x7b \"type\": \"string\", \"description\": \"Natural language " ++
    "question about the cluster\" \x7d,",
  "          \"limit\": \x7b \"type\": \"number\", \"description\": \"Maximum number of " ++
    "results\" \x7d",
  "        \x7d",
  "      \x7d,",
  "      \"RecommendRequest\": \x7b",
  "        \"type\": \"object\",",
  "        \"required\": [\"intent\"],",
  "        \"properties\": \x7b",
  "          \"intent\": \x7b \"type\": \"string\", \"description\": \"What should be " ++
    "deployed\" \x7d,",
  "          \"stage\": \x7b \"type\": \"string\", \"description\": \"Workflow stage to " ++
    "continue\" \x7d,",
  "          \"solutionId\": \x7b \"type\": \"string\", \"description\": \"Solution " ++
    "chosen in a previous step\" \x7d,",
  "          \"answers\": \x7b \"type\": \"object\", \"description\": \"Answers to " ++
    "configuration questions (JSON object)\" \x7d",
  "        \x7d",
  "      \x7d,",
  "      \"RemediateRequest\": \x7b",
  "        \"$ref\": \"#/components/schemas/RemediateBody\"",
  "      \x7d,",
  "      \"RemediateBody\": \x7b",
  "        \"type\": \"object\",",
  "        \"required\": [\"issue\"],",
  "        \"properties\": \x7b",
  "          \"issue\": \x7b \"type\": \"string\", \"description\": \"Description of the " ++
    "problem\" \x7d,",
  "          \"mode\": \x7b \"$ref\": \"#/components/schemas/ExecutionMode\" \x7d,",
  "          \"sessionId\": \x7b \"type\": \"string\", \"description\": \"Continue an " ++
    "existing remediation session\" \x7d,",
  "          \"executeChoice\": \x7b \"type\": \"integer\", \"description\": \"Choice to " ++
    "execute from a previous analysis\" \x7d",
  "        \x7d",
  "      \x7d,",
  "      \"ExecutionMode\": \x7b",
  "        \"type\": \"string\",",
  "        \"description\": \"Whether fixes are applied automatically\",",
  "        \"enum\": [\"manual\", \"automatic\"]",
  "      \x7d,",
  "      \"OperateRequest\": \x7b",
  "        \"type\": \"object\",",
  "        \"required\": [\"intent\"],",
  "        \"properties\": \x7b",
  "          \"intent\": \x7b \"type\": \"string\", \"description\": \"Operation to " ++
    "perform\" \x7d,",
  "          \"sessionId\": \x7b \"type\": \"string\", \"description\": \"Continue an " ++
    "existing operation session\" \x7d,",
  "          \"executeChoice\": \x7b \"type\": \"integer\", \"description\": \"Choice to " ++
    "execute\" \x7d,",
  "          \"refinedIntent\": \x7b \"type\": [\"string\", \"null\"], \"description\": " ++
    "\"Clarified intent\" \x7d",
  "        \x7d",
  "      \x7d,",
  "      \"ManageOrgDataRequest\": \x7b",
  "        \"type\": \"object\",",
  "        \"required\": [\"dataType\", \"operation\"],",
  "        \"properties\": \x7b",
  "          \"dataType\": \x7b \"type\": \"string\", \"description\": \"Kind of " ++
    "organizational data\", \"enum\": [\"pattern\", \"policy\", \"capabilities\"] \x7d,",
  "          \"operation\": \x7b \"type\": \"string\", \"description\": \"Operation such " ++
    "as create, list, get, delete or scan\" \x7d,",
  "          \"id\": \x7b \"type\": \"string\", \"description\": \"Identifier of an " ++
    "existing entry\" \x7d,",
  "          \"sessionId\": \x7b \"type\": \"string\", \"description\": \"Continue an " ++
    "existing workflow\" \x7d,",
  "          \"response\": \x7b \"type\": \"string\", \"description\": \"Answer to the " ++
    "current workflow step\" \x7d",
  "        \x7d",
  "      \x7d,",
  "      \"ManageKnowledgeRequest\": \x7b",
  "        \"type\": \"object\",",
  "        \"required\": [\"operation\"],",
  "        \"properties\": \x7b",
  "          \"operation\": \x7b \"type\": \"string\", \"description\": \"Knowledge " ++
    "operation\", \"enum\": [\"ingest\", \"search\", \"deleteByUri\"] \x7d,",
  "          \"content\": \x7b \"type\": \"string\", \"description\": \"Document content " ++
    "to ingest\" \x7d,",
  "          \"uri\": \x7b \"type\": \"string\", \"description\": \"Document URI\" \x7d,",
  "          \"query\": \x7b \"type\": \"string\", \"description\": \"Search query\" \x7d,",
  "          \"metadata\": \x7b \"type\": \"object\", \"description\": \"Extra document " ++
    "metadata (JSON object)\" \x7d,",
  "          \"tags\": \x7b \"type\": \"array\", \"description\": \"Tags to attach (JSON " ++
    "array)\" \x7d",
  "        \x7d",
  "      \x7d,",
  "      \"versionRequest\": \x7b\x7d",
  "    \x7d",
  "  \x7d",
  "\x7d"]

def builtinText : String := String.join (builtinLines.map (· ++ "\n"))

def builtin : List UInt8 := Text.Utf8.encode builtinText

end Source

end ApiCommands
