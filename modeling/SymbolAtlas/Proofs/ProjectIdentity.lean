/-
  SymbolAtlas.Proofs.ProjectIdentity: the id and the creation time of a project.

  Nothing that is done to a database removes a project, so that one that is shown goes on being
  shown. Its row is changed in place when a scan is noted, but a call that stores the project again
  puts a new row in the place of the old one. What one call does to the row is said once
  (`perform_project?`), and calls at any times follow one after another: a project keeps its id and
  the time of its creation exactly until it is stored again.
-/

import SymbolAtlas.Proofs.Incremental
import SymbolAtlas.Proofs.Write

namespace SymbolAtlas

/-! ## Rows of projects -/

namespace Store

variable {st : Store} {project : String} {r : ProjectRow}

theorem mem_of_project? (h : st.project? project = some r) :
    r ∈ st.projects ∧ r.project = project := by
  have hname := List.find?_some h
  exact ⟨List.mem_of_find?_eq_some h, beq_iff_eq.mp hname⟩

/-- Storing another project leaves the row of this one. -/
theorem project?_putProject_of_ne (st : Store) {d : ProjectData} (hne : d.project ≠ project) :
    (st.putProject d).1.project? project = st.project? project := by
  -- the row that is looked for is not the one that gives way
  have hkept : (fun r : ProjectRow => decide ((!r.project == d.project) = true ∧
      (r.project == project) = true)) = fun r => r.project == project := by
    funext r
    by_cases h : r.project = project
    · simp [h, Ne.symm hne]
    · simp [h]
  have hnew : (d.project == project) = false := beq_false_of_ne hne
  rw [project?, putProject, List.find?_append, List.find?_filter, hkept, List.find?_cons, hnew,
    List.find?_nil, Option.or_none, project?]

/-- Noting a scan, of this project or of another one, keeps the id and the time of creation. -/
theorem project?_noteScan_identity (h : st.project? project = some r) (q : String)
    (commit branch : Option String) :
    ∃ r', (st.noteScan q commit branch).project? project = some r' ∧ r'.id = r.id ∧
      r'.created = r.created := by
  let noted : ProjectRow → ProjectRow := fun r =>
    if r.project = q then
      { r with commit := commit <|> r.commit, branch := branch <|> r.branch } else r
  have hnoted : ∀ r, (noted r).project = r.project ∧ (noted r).id = r.id ∧
      (noted r).created = r.created := by
    intro r
    dsimp only [noted]
    split <;> exact ⟨rfl, rfl, rfl⟩
  have hname : ((fun r : ProjectRow => r.project == project) ∘ noted)
      = fun r => r.project == project := by
    funext r
    rw [Function.comp_apply, (hnoted r).1]
  refine ⟨noted r, ?_, (hnoted r).2⟩
  show (st.projects.map noted).find? (fun r => r.project == project) = some (noted r)
  rw [List.find?_map, hname]
  exact congrArg (Option.map noted) h

end Store

namespace Database

variable {db : Database} {project : String} {r : ProjectRow}

/-! ## One operation -/

/-- A database that opens and has its table of projects. -/
structure HasProjects (db : Database) : Prop where
  opens : db.broken = false
  projects : Table.projects ∉ db.dropped

/-- What an operation leaves that has nothing to do with projects. -/
structure SameProjects (db db' : Database) : Prop where
  rows : db'.store.projects = db.store.projects
  has : db'.HasProjects

theorem HasProjects.same (h : db.HasProjects) : db.SameProjects db := ⟨rfl, h⟩

theorem HasProjects.sameOf_withStore (h : db.HasProjects) {st : Store}
    (hst : st.projects = db.store.projects) : db.SameProjects (db.withStore st) :=
  ⟨hst, h.opens, h.projects⟩

/-- What holds of a database and of every result of a change holds after the change. -/
theorem orElse_induction {P : Database → Prop} {result : Result Database} (h : P db)
    (hok : ∀ db', result = .ok db' → P db') : P (db.orElse result) := by
  cases result with
  | error e => exact h
  | ok db' => exact hok db' rfl

theorem sameProjects_insertEmbedding (h : db.HasProjects) (id vector : Value) :
    db.SameProjects (db.insertEmbedding id vector).1 := by
  have hdropped : Table.projects ∉ db.withEmbeddings.dropped :=
    fun hmem => h.projects (List.mem_filter.mp hmem).1
  rw [insertEmbedding, connect_ok h.opens]
  dsimp only
  split
  · exact ⟨rfl, h.opens, hdropped⟩
  · exact ⟨rfl, h.opens, hdropped⟩

/-- Whether an operation stores a project of this name: its arguments give one. -/
def Operation.storesProject (project : String) : Operation → Bool
  | .createProject q name path isRepository commit branch =>
    match projectOf q name path isRepository commit branch with
    | .ok d => d.project == project
    | .error _ => false
  | _ => false

/-- Where there is a table for it a project is stored whenever the arguments give one. -/
theorem createProject_eq (h : db.HasProjects)
    (project name path isRepository commit branch : Value) :
    db.createProject project name path isRepository commit branch =
      projectOf project name path isRepository commit branch >>= fun d =>
        pure (db.withStore (db.store.putProject d).1, (db.store.putProject d).2) := by
  have hconnect : db.connect = pure () := connect_ok h.opens
  have hneed : db.need .projects = pure () := need_ok h.projects
  simp only [createProject, projectOf, putProject, hconnect, hneed, bind_assoc, pure_bind]

/-- Operations on other tables leave the projects as they are, whether they fail or not. -/
theorem sameProjects_perform (h : db.HasProjects) {op : Operation}
    (hcreate : ∀ project name path isRepository commit branch,
      op ≠ .createProject project name path isRepository commit branch)
    (hscan : ∀ project commit branch, op ≠ .updateScan project commit branch) :
    db.SameProjects (db.perform op) := by
  cases op with
  | insertSymbol data project =>
      refine orElse_induction h.same fun db' hok => ?_
      obtain ⟨id, hok⟩ := Result.map_fst_eq_ok.mp hok
      obtain ⟨d, rfl, -⟩ := insertSymbol_eq_ok hok
      exact h.sameOf_withStore rfl
  | insertRelation source target kind project data =>
      refine orElse_induction h.same fun db' hok => ?_
      obtain ⟨id, hok⟩ := Result.map_fst_eq_ok.mp hok
      obtain ⟨d, rfl, -⟩ := insertRelation_eq_ok hok
      exact h.sameOf_withStore rfl
  | insertEmbedding id vector => exact sameProjects_insertEmbedding h id vector
  | deleteFile file project =>
      refine orElse_induction h.same fun db' hok => ?_
      rcases deleteFile_eq_ok hok with rfl | ⟨pick, rfl⟩
      · exact h.same
      · exact h.sameOf_withStore rfl
  | deleteProject project =>
      refine orElse_induction h.same fun db' hok => ?_
      rcases deleteProject_eq_ok hok with rfl | ⟨pick, rfl⟩
      · exact h.same
      · exact h.sameOf_withStore rfl
  | deleteRelations symbol project =>
      refine orElse_induction h.same fun db' hok => ?_
      rcases deleteRelations_eq_ok hok with rfl | ⟨s, p, rfl⟩
      · exact h.same
      · exact h.sameOf_withStore rfl
  | createProject => exact absurd rfl (hcreate _ _ _ _ _ _)
  | updateScan => exact absurd rfl (hscan _ _ _)
  | reopen =>
      refine orElse_induction h.same fun db' hok => ?_
      obtain ⟨-, -, hok⟩ := Result.bind_eq_ok.mp hok
      obtain rfl := Except.ok.inj hok
      exact ⟨rfl, h.opens, List.not_mem_nil⟩

/-- One operation: a project that is stored again gets a larger id and the time of the operation as
that of its creation. Otherwise it keeps both. -/
theorem perform_project? (h : db.HasProjects) (hr : db.store.project? project = some r)
    (op : Operation) :
    (db.perform op).HasProjects ∧ ∃ r', (db.perform op).store.project? project = some r' ∧
      if op.storesProject project then r.id < r'.id ∧ r'.created = db.store.clock
      else r'.id = r.id ∧ r'.created = r.created := by
  -- all operations but two leave the rows of projects as they are
  have hsame : db.SameProjects (db.perform op) → (db.perform op).HasProjects ∧
      ∃ r', (db.perform op).store.project? project = some r' ∧ r'.id = r.id ∧
        r'.created = r.created := by
    intro hother
    refine ⟨hother.has, r, ?_, rfl, rfl⟩
    rw [Store.project?, hother.rows]
    exact hr
  cases op with
  | createProject q name path isRepository commit branch =>
      rw [perform, createProject_eq h, Operation.storesProject]
      cases projectOf q name path isRepository commit branch with
      | error e => exact ⟨h, r, hr, rfl, rfl⟩
      | ok d =>
          refine ⟨⟨h.opens, h.projects⟩, ?_⟩
          show ∃ r', (db.store.putProject d).1.project? project = some r' ∧
            if (d.project == project) = true then _ else _
          by_cases hd : d.project = project
          · -- a project that is stored again is a new row, with the next id and the present time
            subst hd
            refine ⟨_, db.store.project?_putProject d, ?_⟩
            rw [beq_self_eq_true, if_pos rfl]
            exact ⟨Store.lt_nextId (List.mem_map_of_mem (Store.mem_of_project? hr).1), rfl⟩
          · refine ⟨r, (db.store.project?_putProject_of_ne hd).trans hr, ?_⟩
            rw [beq_false_of_ne hd]
            exact ⟨rfl, rfl⟩
  | updateScan q commit branch =>
      have hscan : ∀ db', db.updateScan q commit branch = .ok db' → db'.HasProjects ∧
          ∃ r', db'.store.project? project = some r' ∧ r'.id = r.id ∧ r'.created = r.created := by
        intro db' hok
        rcases updateScan_eq_ok hok with rfl | ⟨p, c, b, rfl⟩
        · exact ⟨h, r, hr, rfl, rfl⟩
        · exact ⟨⟨h.opens, h.projects⟩, Store.project?_noteScan_identity hr p c b⟩
      exact orElse_induction ⟨h, r, hr, rfl, rfl⟩ hscan
  | _ => exact hsame (sameProjects_perform h (by intros; simp) (by intros; simp))

/-! ## Calls at their times -/

/-- The database at a time. -/
def atTime (db : Database) (time : Nat) : Database :=
  db.withStore { db.store with clock := time }

/-- The database after calls, each made at its time. -/
def performTimed (db : Database) (calls : List (Nat × Operation)) : Database :=
  calls.foldl (fun db call => (db.atTime call.1).perform call.2) db

/-- The calls that store a project. -/
def storing (project : String) (calls : List (Nat × Operation)) : List (Nat × Operation) :=
  calls.filter fun call => call.2.storesProject project

theorem storing_cons (project : String) (call : Nat × Operation) (rest : List (Nat × Operation)) :
    storing project (call :: rest)
      = if call.2.storesProject project then call :: storing project rest
        else storing project rest :=
  List.filter_cons

/-- All calls, by one after another: the project was created when it was last stored, and its id is
larger than before if it was stored at all. -/
theorem performTimed_project? (h : db.HasProjects) (hr : db.store.project? project = some r)
    (calls : List (Nat × Operation)) :
    (db.performTimed calls).HasProjects ∧
      ∃ r', (db.performTimed calls).store.project? project = some r' ∧ r.id ≤ r'.id ∧
        (r'.id = r.id ↔ storing project calls = []) ∧
        r'.created = ((storing project calls).getLast?.map (·.1)).getD r.created := by
  induction calls generalizing db r with
  | nil => exact ⟨h, r, hr, Int.le_refl _, by simp [storing], rfl⟩
  | cons call rest ih =>
      have hat : (db.atTime call.1).HasProjects := ⟨h.opens, h.projects⟩
      obtain ⟨hafter, s, hs, hstep⟩ := perform_project? hat hr call.2
      obtain ⟨hhas, r', hr', hle, hid, hcreated⟩ := ih hafter hs
      refine ⟨hhas, r', hr', ?_⟩
      rw [storing_cons]
      split at hstep
      next hstores =>
        obtain ⟨hlt, htime⟩ := hstep
        rw [if_pos hstores, List.getLast?_cons]
        refine ⟨by omega, ⟨fun heq => by omega, fun hnil => absurd hnil (by simp)⟩, ?_⟩
        -- the time of this call stands unless the project is stored later still
        have hclock : (db.atTime call.1).store.clock = call.1 := rfl
        rw [hcreated, htime, hclock]
        cases (storing project rest).getLast? <;> rfl
      next hstores =>
        obtain ⟨heq, htime⟩ := hstep
        rw [if_neg hstores, ← heq, ← htime]
        exact ⟨hle, hid, hcreated⟩

/-! ## What is shown -/

/-- A table that is asked for is there. -/
theorem hasProjects_of_need {u v : Unit} (hconnect : db.connect = .ok u)
    (hneed : db.need .projects = .ok v) : db.HasProjects := by
  constructor
  · by_contra hbroken
    rw [Bool.not_eq_false] at hbroken
    rw [connect, if_pos hbroken] at hconnect
    exact absurd hconnect (by simp)
  · intro hdropped
    rw [need, if_pos (List.contains_iff_mem.mpr hdropped)] at hneed
    exact absurd hneed (by simp)

/-- A project is shown when the table is there and has a row under the text of the argument. -/
theorem getProject_eq_some_iff {value : Value} :
    db.getProject value = .ok (some r) ↔
      db.HasProjects ∧ bindText 1 value = .ok (some r.project) ∧
        db.store.project? r.project = some r := by
  constructor
  · intro h
    simp only [getProject, Result.bind_eq_ok] at h
    obtain ⟨u, hconnect, v, hneed, text, htext, h⟩ := h
    split at h
    next p =>
      simp only [projectInfo, Result.bind_eq_ok] at h
      obtain ⟨-, -, -, -, h⟩ := h
      have hrow : db.store.project? p = some r := Except.ok.inj h
      have hname := (Store.mem_of_project? hrow).2
      exact ⟨hasProjects_of_need hconnect hneed, hname ▸ htext, hname ▸ hrow⟩
    next => exact absurd (Except.ok.inj h) (by simp)
  · rintro ⟨h, htext, hrow⟩
    have hconnect : db.connect = pure () := connect_ok h.opens
    have hneed : db.need .projects = pure () := need_ok h.projects
    have hbound : bindText 1 value = pure (some r.project) := htext
    simp only [getProject, projectInfo, hconnect, hneed, hbound, pure_bind, hrow]
    rfl

/-- A project that is shown goes on being shown whatever operations follow, at whatever times. It
was created when it was last stored, and it has the same id as before exactly if no call has stored
it since. -/
theorem project_identity_kept_iff {value : Value} (h : db.getProject value = .ok (some r))
    (calls : List (Nat × Operation)) :
    ∃ r', (db.performTimed calls).getProject value = .ok (some r') ∧ r'.project = r.project ∧
      r'.created = ((storing r.project calls).getLast?.map (·.1)).getD r.created ∧
      (r'.id = r.id ↔ ∀ call ∈ calls, call.2.storesProject r.project = false) := by
  obtain ⟨hhas, htext, hrow⟩ := getProject_eq_some_iff.mp h
  obtain ⟨hafter, r', hr', -, hid, hcreated⟩ := performTimed_project? hhas hrow calls
  have hname := (Store.mem_of_project? hr').2
  refine ⟨r', ?_, hname, hcreated, ?_⟩
  · rw [getProject_eq_some_iff, hname]
    exact ⟨hafter, htext, hr'⟩
  · rw [hid, storing, List.filter_eq_nil_iff]
    simp only [Bool.not_eq_true]

/-- Stores the project `p`. -/
def createP : Operation := .createProject "p" .null "." (.bool false) .null .null

/-- The project is created at time 1, and scans are noted at times 2 and 3. It keeps its id and the
time of its creation. -/
theorem project_identity_kept_iff_scans :
    ∃ r', ((performTimed {} [(1, createP)]).performTimed
        [(2, .updateScan "p" "c1" "main"), (3, .updateScan "p" "c2" .null)]).getProject "p"
          = .ok (some r') ∧ r'.created = 1 ∧ r'.id = 1 := by
  have hshown : (performTimed {} [(1, createP)]).getProject "p"
      = .ok (some ⟨⟨"p", none, ".", some (.int 0), none, none⟩, 1, 1⟩) := rfl
  obtain ⟨r', hr', -, hcreated, hid⟩ := project_identity_kept_iff hshown
    [(2, .updateScan "p" "c1" "main"), (3, .updateScan "p" "c2" .null)]
  exact ⟨r', hr', hcreated, hid.mpr (by decide)⟩

/-- Stored again at time 2, the project is another row: its id is 2, and so is the time of its
creation. -/
theorem project_stored_again_anew :
    (performTimed {} [(1, createP)]).getProject "p"
        = .ok (some ⟨⟨"p", none, ".", some (.int 0), none, none⟩, 1, 1⟩) ∧
      (performTimed {} [(1, createP), (2, createP)]).getProject "p"
        = .ok (some ⟨⟨"p", none, ".", some (.int 0), none, none⟩, 2, 2⟩) :=
  ⟨rfl, rfl⟩

end Database

end SymbolAtlas
