/-
  SymbolAtlas.Service.Request: requests by the name of a tool and its arguments.
-/

import SymbolAtlas.Service.Tool

namespace SymbolAtlas

namespace Request

/-- A field of a record that holds a text. -/
def text (key : String) (fields : List (String × Value)) : String :=
  match Value.field? key fields with
  | some (.text s) => s
  | _ => ""

/-- A field of a record that holds a text or null. -/
def text? (key : String) (fields : List (String × Value)) : Option String :=
  match Value.field? key fields with
  | some (.text s) => some s
  | _ => none

/-- A field of a record that holds a whole number. -/
def int (key : String) (fields : List (String × Value)) : Int :=
  match Value.field? key fields with
  | some (.int n) => n
  | _ => 0

/-- The project of a record that may name one. -/
def project? (fields : List (String × Value)) : Option String := text? "project_id" fields

/-- The project of a record that names one. -/
def project (fields : List (String × Value)) : String := text "project_id" fields

/-- The tools with arguments: the record of the arguments, and the request that it stands for. -/
def tools : List (String × Record × (List (String × Value) → Request)) :=
  [("index_codebase", Schema.indexRequest, fun fs => .index (text "path" fs) (project fs)),
   ("search_symbol_by_name", Schema.nameSearchRequest, fun fs =>
      .searchByName (text "name" fs) (text? "language" fs) (project? fs)),
   ("search_symbol_semantic", Schema.meaningSearchRequest, fun fs =>
      .searchByMeaning (text "query" fs) (int "top_k" fs) (project? fs)),
   ("force_full_rescan", Schema.rescanRequest, fun fs => .forceFullScan (project fs)),
   ("delete_project", Schema.deletionRequest, fun fs => .deleteProject (project fs)),
   ("get_project_info", Schema.projectRequest, fun fs => .projectInfo (project fs)),
   ("get_stats", Schema.statsRequest, fun fs => .stats (project? fs)),
   ("find_function_callers", Schema.callersRequest, fun fs =>
      .callers (text "function_name" fs) (project? fs)),
   ("find_interface_implementations", Schema.implementationsRequest, fun fs =>
      .implementations (text "interface_name" fs) (project? fs)),
   ("get_symbol_relationships", Schema.relationshipsRequest, fun fs =>
      .relationships (text "symbol_name" fs) (text? "relationship_type" fs)
        ((Direction.ofName? (text "direction" fs)).getD .both) (project? fs)),
   ("get_dependency_graph", Schema.graphRequest, fun fs =>
      .graph (project? fs) (int "max_depth" fs)),
   ("analyze_call_hierarchy", Schema.hierarchyRequest, fun fs =>
      .hierarchy (text "function_name" fs) (project? fs) (int "max_depth" fs))]

/-- The request to a tool; none when there is no tool of that name. -/
def read? (tool : String) (given : List (String × Value)) :
    Option (Except Schema.Refusal Request) :=
  match tool with
  | "list_projects" => some (.ok .listProjects)
  | "health_check" => some (.ok .health)
  | _ => (tools.find? (·.1 == tool)).map fun (_, record, request) =>
      (record.build given).map request

end Request

end SymbolAtlas
