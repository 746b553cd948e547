/-
  SymbolAtlas.Schema.Records: the enumerations and records of requests and answers.
-/

import SymbolAtlas.Schema.Check

namespace SymbolAtlas.Schema

/-! ## Enumerations -/

/-- Kinds of symbols that answers may hold. -/
def symbolType : Enumeration where
  name := "SymbolType"
  members :=
    ["function", "class", "method", "variable", "constant", "interface", "type", "module",
     "package", "namespace", "enum", "struct", "trait", "protocol", "abstract_class", "constructor",
     "destructor", "property", "field", "parameter", "import", "export", "decorator", "annotation",
     "macro", "template", "generic", "alias", "typedef", "unknown"]

/-- Kinds of relationships that answers may hold. -/
def relationshipType : Enumeration where
  name := "RelationshipType"
  members :=
    ["calls", "inherits", "implements", "imports", "exports", "references", "contains", "uses",
     "depends_on", "extends", "overrides", "shadows", "aliases", "typedefs", "instantiates",
     "throws", "catches", "returns", "parameter_of", "field_of", "method_of", "constructor_of",
     "destructor_of", "getter_of", "setter_of", "annotates", "decorates", "macro_expands",
     "template_instantiates", "generic_specializes", "unknown"]

/-- Which end of a relationship a symbol is. -/
def direction : Enumeration where
  name := "Direction"
  members := ["incoming", "outgoing", "both"]

/-- The state of a component. -/
def healthStatus : Enumeration where
  name := "HealthStatus"
  members := ["healthy", "error", "unknown", "running"]

/-! ## Parts -/

/-- A place in a file. -/
def location : Record where
  name := "Location"
  fields := [need "file" .text, need "line" .int, may "column" .int]

/-- A stored symbol. -/
def symbol : Record where
  name := "Symbol"
  fields :=
    [may "id" .int, may "project_id" .text, need "name" .text,
     need "symbol_type" (.choice symbolType), need "language" .text, need "file_path" .text,
     need "line_start" .int, may "line_end" .int, need "code_snippet" .text, may "score" .float]

/-- A relationship seen from one of its ends. -/
def relationship : Record where
  name := "Relationship"
  fields :=
    [need "type" (.choice relationshipType), need "direction" (.choice direction), may "data" .data]

/-- The other end of a relationship. -/
def relatedSymbol : Record where
  name := "RelatedSymbol"
  fields :=
    [need "name" .text, need "type" (.choice symbolType), need "file" .text, need "line" .int]

/-- A symbol, a relationship and its other end. -/
def symbolRelationship : Record where
  name := "SymbolRelationship"
  fields :=
    [need "symbol" symbol.type, need "relationship" relationship.type,
     need "related_symbol" relatedSymbol.type]

/-- A symbol that calls, or is called. -/
def caller : Record where
  name := "Caller"
  fields :=
    [need "name" .text, need "type" (.choice symbolType), need "file" .text, need "line" .int,
     may "code" .text]

/-- A function. -/
def function : Record where
  name := "Function"
  fields := [need "name" .text, need "file" .text, need "line" .int]

/-- A caller and what it calls. -/
def callerInfo : Record where
  name := "CallerInfo"
  fields := [need "caller" caller.type, need "function" function.type, may "project_id" .text]

/-- A symbol that implements. -/
def implementation : Record where
  name := "Implementation"
  fields :=
    [need "name" .text, need "type" (.choice symbolType), need "file" .text, need "line" .int,
     may "code" .text]

/-- An interface. -/
def interface : Record where
  name := "Interface"
  fields := [need "name" .text, need "file" .text, need "line" .int]

/-- An implementation and its interface. -/
def implementationInfo : Record where
  name := "ImplementationInfo"
  fields :=
    [need "implementation" implementation.type, need "interface" interface.type,
     may "project_id" .text]

/-- A project. -/
def projectInfo : Record where
  name := "ProjectInfo"
  fields :=
    [need "project_id" .text, need "name" .text, need "path" .text, need "is_git_repo" .bool,
     may "last_commit_hash" .text, may "last_branch" .text, may "last_scan_time" .text,
     may "total_symbols" .int, may "total_files" .int]

/-- The state of a repository. -/
def gitInfo : Record where
  name := "GitInfo"
  fields :=
    [need "current_branch" .text, need "current_commit_hash" .text, may "remote_url" .text,
     may "status" .text]

/-- An embedding model. -/
def modelInfo : Record where
  name := "EmbeddingModelInfo"
  fields := [need "model_name" .text, need "model_dimensions" .int, need "model_provider" .text]

/-- Counts over the store. -/
def storeStats : Record where
  name := "DatabaseStats"
  fields :=
    [need "total_symbols" .int, need "total_files" .int, need "total_projects" .int,
     need "total_relationships" .int, need "total_embeddings" .int, need "languages" .counts,
     need "symbol_types" .counts]

/-- The states of all components. -/
def healthReport : Record where
  name := "HealthStatusInfo"
  fields :=
    [need "server" (.choice healthStatus), need "database" (.choiceOrText healthStatus),
     need "embeddings" (.choiceOrText healthStatus), need "parser" (.choiceOrText healthStatus)]

/-- A symbol in the dependency graph. -/
def dependencyNode : Record where
  name := "DependencyNode"
  fields :=
    [need "id" .text, need "name" .text, need "type" (.choice symbolType), need "file" .text,
     need "line" .int]

/-- A relationship in the dependency graph. -/
def dependencyEdge : Record where
  name := "DependencyEdge"
  fields :=
    [need "source" .text, need "target" .text, need "relationship_type" (.choice relationshipType),
     may "weight" .float]

/-- The dependency graph. -/
def dependencyGraph : Record where
  name := "DependencyGraph"
  fields :=
    [need "total_nodes" .int, need "total_edges" .int, need "nodes" (.list dependencyNode.type),
     need "edges" (.list dependencyEdge.type)]

/-- Callers and callees of a function. -/
def callHierarchy : Record where
  name := "CallHierarchy"
  fields :=
    [need "function" function.type, may "project_id" .text, need "callers" (.list caller.type),
     need "callees" (.list caller.type), may "max_depth" .int]

/-! ## Requests -/

/-- Index a directory. -/
def indexRequest : Record where
  name := "IndexCodebaseInput"
  fields := [need "path" .text, preset "project_id" .text "default"]

/-- Search by name. -/
def nameSearchRequest : Record where
  name := "SearchSymbolByNameInput"
  fields := [need "name" .text, may "language" .text, may "project_id" .text]

/-- Search by meaning. -/
def meaningSearchRequest : Record where
  name := "SearchSymbolSemanticInput"
  fields := [need "query" .text, preset "top_k" .int (.int 10), may "project_id" .text]

/-- Forget what was scanned. -/
def rescanRequest : Record where
  name := "ForceFullRescanInput"
  fields := [need "project_id" .text]

/-- Delete a project. -/
def deletionRequest : Record where
  name := "DeleteProjectInput"
  fields := [need "project_id" .text]

/-- Show a project. -/
def projectRequest : Record where
  name := "GetProjectInfoInput"
  fields := [need "project_id" .text]

/-- Count what is stored. -/
def statsRequest : Record where
  name := "GetStatsInput"
  fields := [may "project_id" .text]

/-- Find callers. -/
def callersRequest : Record where
  name := "FindFunctionCallersInput"
  fields := [need "function_name" .text, may "project_id" .text]

/-- Find implementations. -/
def implementationsRequest : Record where
  name := "FindInterfaceImplementationsInput"
  fields := [need "interface_name" .text, may "project_id" .text]

/-- Find relationships. -/
def relationshipsRequest : Record where
  name := "GetSymbolRelationshipsInput"
  fields :=
    [need "symbol_name" .text, may "relationship_type" (.choice relationshipType),
     preset "direction" (.choice direction) "both", may "project_id" .text]

/-- Show the dependency graph. -/
def graphRequest : Record where
  name := "GetDependencyGraphInput"
  fields := [may "project_id" .text, preset "max_depth" .int (.int 3)]

/-- Show callers and callees. -/
def hierarchyRequest : Record where
  name := "AnalyzeCallHierarchyInput"
  fields := [need "function_name" .text, may "project_id" .text, preset "max_depth" .int (.int 3)]

/-! ## Answers -/

/-- The answer to: index a directory. -/
def indexAnswer : Record where
  name := "IndexCodebaseOutput"
  fields :=
    [need "success" .bool, need "project_id" .text, need "is_git_repo" .bool,
     may "current_commit_hash" .text, may "current_branch" .text, may "last_commit_hash" .text,
     may "last_branch" .text, need "processed_files" .int, need "total_symbols_added" .int,
     need "errors" (.list .text), need "database_stats" storeStats.type, may "error" .text]

/-- The answer to: search by name. -/
def nameSearchAnswer : Record where
  name := "SearchSymbolByNameOutput"
  fields :=
    [need "success" .bool, need "query" .text, may "language_filter" .text,
     may "project_filter" .text, need "total_results" .int, need "results" (.list symbol.type),
     may "error" .text]

/-- The answer to: search by meaning. -/
def meaningSearchAnswer : Record where
  name := "SearchSymbolSemanticOutput"
  fields :=
    [need "success" .bool, need "query" .text, need "top_k" .int, may "project_filter" .text,
     need "total_results" .int, need "results" (.list symbol.type), may "error" .text]

/-- The answer to a request for all projects. -/
def projectsAnswer : Record where
  name := "ListProjectsOutput"
  fields :=
    [need "success" .bool, need "total_projects" .int, need "projects" (.list projectInfo.type),
     may "error" .text]

/-- The answer to: forget what was scanned. -/
def rescanAnswer : Record where
  name := "ForceFullRescanOutput"
  fields :=
    [need "success" .bool, need "project_id" .text, need "message" .text, may "error" .text]

/-- The answer to: delete a project. -/
def deletionAnswer : Record where
  name := "DeleteProjectOutput"
  fields :=
    [need "success" .bool, need "project_id" .text, need "deleted_symbols" .int,
     need "deleted_files" .int, need "message" .text, may "error" .text]

/-- The answer to: show a project. -/
def projectAnswer : Record where
  name := "GetProjectInfoOutput"
  fields :=
    [need "success" .bool, may "project_info" projectInfo.type, may "git_info" gitInfo.type,
     may "database_stats" storeStats.type, may "error" .text]

/-- The answer to: count what is stored. -/
def statsAnswer : Record where
  name := "GetStatsOutput"
  fields :=
    [need "success" .bool, need "database_stats" storeStats.type,
     may "embedding_model" modelInfo.type, may "error" .text]

/-- The answer to a health check. -/
def healthAnswer : Record where
  name := "HealthCheckOutput"
  fields := [need "success" .bool, need "health" healthReport.type, may "error" .text]

/-- The answer to: find callers. -/
def callersAnswer : Record where
  name := "FindFunctionCallersOutput"
  fields :=
    [need "function_name" .text, may "project_id" .text, need "total_callers" .int,
     need "callers" (.list callerInfo.type)]

/-- The answer to: find implementations. -/
def implementationsAnswer : Record where
  name := "FindInterfaceImplementationsOutput"
  fields :=
    [need "interface_name" .text, may "project_id" .text, need "total_implementations" .int,
     need "implementations" (.list implementationInfo.type)]

/-- The answer to: find relationships. -/
def relationshipsAnswer : Record where
  name := "GetSymbolRelationshipsOutput"
  fields :=
    [need "symbol_name" .text, may "project_id" .text,
     may "relationship_type" (.choice relationshipType), need "direction" (.choice direction),
     need "total_relationships" .int, need "relationships" (.list symbolRelationship.type),
     may "error" .text]

/-- The answer to: show the dependency graph. -/
def graphAnswer : Record where
  name := "GetDependencyGraphOutput"
  fields :=
    [may "project_id" .text, need "max_depth" .int, need "total_nodes" .int,
     need "total_edges" .int, need "nodes" (.list dependencyNode.type),
     need "edges" (.list dependencyEdge.type)]

/-- The answer to: show callers and callees. -/
def hierarchyAnswer : Record where
  name := "AnalyzeCallHierarchyOutput"
  fields :=
    [need "function" function.type, may "project_id" .text, need "callers" (.list caller.type),
     need "callees" (.list caller.type), need "max_depth" .int, may "error" .text]

/-! ## By name -/

/-- All enumerations. -/
def enumerations : List Enumeration :=
  [symbolType, relationshipType, direction, healthStatus]

/-- All records. -/
def records : List Record :=
  [location, symbol, relationship, relatedSymbol, symbolRelationship, caller, function, callerInfo,
   implementation, interface, implementationInfo, projectInfo, gitInfo, modelInfo,
   storeStats, healthReport, dependencyNode, dependencyEdge, dependencyGraph, callHierarchy,
   indexRequest, nameSearchRequest, meaningSearchRequest, rescanRequest,
   deletionRequest, projectRequest, statsRequest, callersRequest,
   implementationsRequest, relationshipsRequest, graphRequest,
   hierarchyRequest, indexAnswer, nameSearchAnswer,
   meaningSearchAnswer, projectsAnswer, rescanAnswer, deletionAnswer,
   projectAnswer, statsAnswer, healthAnswer, callersAnswer,
   implementationsAnswer, relationshipsAnswer, graphAnswer,
   hierarchyAnswer]

/-- The enumeration of a name. -/
def enumeration? (name : String) : Option Enumeration := enumerations.find? (·.name == name)

/-- The record of a name. -/
def record? (name : String) : Option Record := records.find? (·.name == name)

end SymbolAtlas.Schema
