/-
  SymbolAtlas.Proofs.Statistics: numbers that agree with each other.

  Projects are listed with the numbers of their symbols, files and languages, and each project can
  be counted by itself. What is counted by a key adds up to the number of all rows, since each row
  has one key (`length_eq_sum_filter`): the symbols by language, the relationships by kind, and the
  symbols of the whole store by project. The embeddings of a project's symbols have ids that differ,
  so that they are not more than the symbols (`Tidy.embeddedIn_le`).
-/

import Mathlib
import SymbolAtlas.Proofs.Endpoints
import SymbolAtlas.Proofs.Selections
import SymbolAtlas.Proofs.Substring

namespace SymbolAtlas

/-! ## Counting by keys -/

/-- The rows of each key, together, are as many as there are rows. -/
theorem length_eq_sum_filter {α : Type} (key : α → String) (rows : List α) :
    rows.length
      = ((rows.map key).eraseDups.map fun k => (rows.filter fun r => key r == k).length).sum := by
  have hparts := perm_flatMap_eraseDups key rows
  rw [hparts.length_eq, List.length_flatMap]

theorem keys_tally (texts : List String) : (tally texts).map (·.1) = texts.eraseDups := by
  rw [tally, List.map_map]
  exact List.map_id _

theorem length_tally (texts : List String) : (tally texts).length = texts.eraseDups.length := by
  rw [← keys_tally, List.length_map]

theorem sum_tally (texts : List String) : ((tally texts).map (·.2)).sum = texts.length := by
  have hsum := length_eq_sum_filter id texts
  rw [List.map_id] at hsum
  rw [hsum, tally, List.map_map]
  rfl

theorem card_toFinset (texts : List String) : texts.toFinset.card = texts.eraseDups.length := by
  have hsame : texts.toFinset = texts.eraseDups.toFinset := by
    ext t
    rw [List.mem_toFinset, List.mem_toFinset, List.mem_eraseDups]
  rw [hsame, List.toFinset_card_of_nodup (nodup_eraseDups texts)]

/-- Whether numbers are those of some symbols and relationships, and agree with each other. -/
structure Stats.Counts (s : Stats) (rows : List SymbolRow) (relations : List RelationRow) :
    Prop where
  symbols : s.symbols = rows.length
  files : s.files = (rows.map (·.file)).toFinset.card
  files_le : s.files ≤ s.symbols
  languages : ∀ l, l ∈ s.languages.map (·.1) ↔ ∃ r ∈ rows, r.language = l
  distinct : (s.languages.map (·.1)).Nodup
  languages_sum : (s.languages.map (·.2)).sum = s.symbols
  relations : s.relations = relations.length
  kinds_sum : (s.kinds.map (·.2)).sum = s.relations

/-- Whether the entry of a project in the list of projects agrees with the project's counts. -/
structure ProjectSummary.AgreesWith (s : ProjectSummary) (counts : Stats) : Prop where
  symbols : s.symbols = counts.symbols
  files : s.files = counts.files
  languages : s.languages = counts.languages.length

namespace Store

variable {st : Store}

theorem stats_counts (st : Store) (project : Option String) :
    (st.stats project).Counts (st.inScope none project) (st.relationsIn project) where
  symbols := rfl
  files := (card_toFinset _).symm
  files_le := by
    have hle := length_eraseDups_le ((st.inScope none project).map (·.file))
    rwa [List.length_map] at hle
  languages := by
    intro l
    rw [stats, keys_tally, List.mem_eraseDups, List.mem_map]
  distinct := by
    rw [stats, keys_tally]
    exact nodup_eraseDups _
  languages_sum := by
    rw [stats, sum_tally, List.length_map]
  relations := rfl
  kinds_sum := by
    rw [stats, sum_tally, List.length_map]

theorem relationsIn_project (st : Store) (p : String) :
    st.relationsIn (some p) = st.relations.filter fun r => r.project == p := by
  rw [relationsIn]
  congr 1
  funext r
  rw [passes, Bool.beq_comm]

theorem summary_agreesWith (st : Store) (p : String) :
    (st.summary p).AgreesWith (st.stats (some p)) where
  symbols := rfl
  files := rfl
  languages := (length_tally _).symm

/-- Each embedding that counts is that of another symbol of the project. -/
theorem Tidy.embeddedIn_le (h : st.Tidy) (p : String) :
    st.embeddedIn (some p) ≤ (st.inScope none (some p)).length := by
  have hdistinct : ((st.embeddings.filter fun e =>
      st.symbols.any fun r => r.id == e.id && r.project == p).map (·.id)).Nodup := by
    rw [List.Nodup, List.pairwise_map]
    exact (h.embeddingIds.sublist List.filter_sublist).imp fun hlt => Int.ne_of_lt hlt
  have hsub : ((st.embeddings.filter fun e =>
      st.symbols.any fun r => r.id == e.id && r.project == p).map (·.id))
        ⊆ (st.inScope none (some p)).map (·.id) := by
    intro id hid
    obtain ⟨e, he, rfl⟩ := List.mem_map.mp hid
    obtain ⟨r, hr, hmatch⟩ := List.any_eq_true.mp (List.mem_filter.mp he).2
    obtain ⟨hsame, hproject⟩ := Bool.and_eq_true_iff.mp hmatch
    rw [inScope_project]
    exact List.mem_map.mpr ⟨r, List.mem_filter.mpr ⟨hr, hproject⟩, beq_iff_eq.mp hsame⟩
  have hle := (hdistinct.subperm hsub).length_le
  rwa [List.length_map, List.length_map] at hle

/-! ## The list of projects -/

theorem summaries_perm (st : Store) :
    st.summaries.Perm ((st.symbols.map (·.project)).eraseDups.map st.summary) :=
  sortByKey_perm _ _

/-- There is one entry for each project that has symbols. -/
theorem projects_summaries_perm (st : Store) :
    (st.summaries.map (·.project)).Perm (st.symbols.map (·.project)).eraseDups := by
  refine (st.summaries_perm.map _).trans (List.Perm.of_eq ?_)
  rw [List.map_map]
  exact List.map_id _

theorem eq_summary_of_mem {s : ProjectSummary} (hs : s ∈ st.summaries) :
    s = st.summary s.project := by
  obtain ⟨p, -, rfl⟩ := List.mem_map.mp (st.summaries_perm.mem_iff.mp hs)
  rfl

/-- Larger projects come first. -/
theorem sorted_summaries (st : Store) :
    st.summaries.Pairwise fun a b => b.symbols ≤ a.symbols := by
  have hexact : ∀ s : ProjectSummary, Cell.ExactKey (summaryKey s) := by
    intro s
    simp [Cell.ExactKey, Cell.Exact, summaryKey]
  refine (pairwise_sortByKey hexact _).imp fun {a b} hle => ?_
  rw [summaryKey, summaryKey, Cell.lexLe_cons] at hle
  rcases hle with ⟨heq, -⟩ | ⟨-, hle⟩
  · have hcounts := Cell.int.inj heq
    omega
  · simp only [Cell.le, decide_eq_true_eq] at hle
    omega

/-- The projects together have all symbols. -/
theorem sum_summaries (st : Store) : (st.summaries.map (·.symbols)).sum = st.symbols.length := by
  rw [(st.summaries_perm.map _).sum_eq, length_eq_sum_filter (·.project) st.symbols, List.map_map]
  refine congrArg List.sum (List.map_congr_left fun p _ => ?_)
  exact congrArg List.length (st.inScope_project p)

end Store

namespace Database

/-- The counts of a project, or of all symbols if the project is an empty text. -/
theorem Sound.count_ok {db : Database} (h : db.Sound) (project : Option String) :
    db.count (.ofText? project) = .ok (db.store.stats (project.bind Store.filterOf)) := by
  rw [count, connect_ok h.opens, need_ok (h.has .symbols), bindFilter_bind]
  exact h.stats_ok _

/-- Whatever is done to a database that was empty: each project that has symbols is listed once, the
larger ones first. The entry of a project with a name agrees with the counts of that project, which
are those of its symbols and relationships and agree with each other, and not more symbols are
counted as embedded than there are. The symbols of all projects together are those that are counted
in the whole database. -/
theorem statistics_agree (actions : List Action) :
    let db := reached actions
    ∃ projects, db.summaries = .ok projects ∧
      (projects.map (·.project)).Nodup ∧
      (∀ p, p ∈ projects.map (·.project) ↔ ∃ r ∈ db.store.symbols, r.project = p) ∧
      (projects.Pairwise fun a b => b.symbols ≤ a.symbols) ∧
      (∀ s ∈ projects, s.project ≠ "" → ∃ counts, db.count (.text s.project) = .ok counts ∧
        s.AgreesWith counts ∧
        counts.Counts (db.store.symbols.filter (·.project == s.project))
          (db.store.relations.filter (·.project == s.project)) ∧
        counts.embedded ≤ counts.symbols) ∧
      ∃ counts, db.count .null = .ok counts ∧ counts.symbols = db.store.symbols.length ∧
        counts.symbols = (projects.map (·.symbols)).sum := by
  intro db
  have hregular : db.Regular := regular_reached actions
  have hprojects := db.store.projects_summaries_perm
  refine ⟨_, hregular.sound.summaries_ok, ?_, ?_, db.store.sorted_summaries, ?_, ?_⟩
  · exact hprojects.nodup_iff.mpr (nodup_eraseDups _)
  · intro p
    rw [hprojects.mem_iff, List.mem_eraseDups, List.mem_map]
  · intro s hs hnamed
    have hcount := hregular.sound.count_ok (some s.project)
    -- the empty name is no filter, so named projects only are counted on their own
    rw [bind_filterOf fun heq => hnamed (Option.some.inj heq)] at hcount
    refine ⟨_, hcount, ?_, ?_, hregular.tidy.embeddedIn_le s.project⟩
    · have hagrees := db.store.summary_agreesWith s.project
      rwa [← Store.eq_summary_of_mem hs] at hagrees
    · rw [← Store.inScope_project, ← Store.relationsIn_project]
      exact db.store.stats_counts (some s.project)
  · have hall : (db.store.stats none).symbols = db.store.symbols.length :=
      congrArg List.length db.store.inScope_all
    exact ⟨_, hregular.sound.count_ok none, hall, hall.trans db.store.sum_summaries.symm⟩

/-- A project with an embedded function, which another function calls, and a smaller project. -/
def twoProjects : List Action :=
  [.operation (.insertSymbol (functionFields "run" "a.py") "q"),
   .operation (.insertSymbol (functionFields "run" "a.py") "p"),
   .operation (.insertSymbol (functionFields "load" "a.py") "p"),
   .operation (.insertRelation (.int 3) (.int 2) "calls" "p" .null),
   .operation (.insertEmbedding (.int 2) (.list [.int 1]))]

/-- The entry of the larger project, with what is counted in it. -/
theorem statistics_agree_twoProjects :
    let db := reached twoProjects
    ∃ projects, db.summaries = .ok projects ∧ (projects.map (·.symbols)).sum = 3 ∧
      ∃ s ∈ projects, s.project = "p" ∧ s.symbols = 2 ∧ s.files = 1 ∧
        ∃ counts, db.count "p" = .ok counts ∧ s.AgreesWith counts ∧
          counts.Counts (db.store.symbols.filter (·.project == "p"))
            (db.store.relations.filter (·.project == "p")) ∧
          counts.relations = 1 ∧ counts.embedded ≤ counts.symbols := by
  intro db
  have hstored : db.store.symbols.length = 3 ∧
      (∃ r ∈ db.store.symbols, r.project = "p") ∧
      (db.store.symbols.filter (·.project == "p")).length = 2 ∧
      ((db.store.symbols.filter (·.project == "p")).map (·.file)) = ["a.py", "a.py"] ∧
      (db.store.relations.filter (·.project == "p")).length = 1 := by
    decide +kernel
  obtain ⟨hall, hfunction, hsymbols, hfiles, hrelations⟩ := hstored
  obtain ⟨projects, hprojects, -, hlisted, -, hagree, total, -, htotal, hsum⟩ :=
    statistics_agree twoProjects
  obtain ⟨s, hs, hproject⟩ := List.mem_map.mp ((hlisted "p").mpr hfunction)
  obtain ⟨counts, hcount, hentry, hcounts, hembedded⟩ := hagree s hs (by rw [hproject]; decide)
  rw [hproject] at hcount hcounts
  refine ⟨projects, hprojects, hsum.symm.trans (htotal.trans hall), s, hs, hproject, ?_, ?_, counts,
    hcount, hentry, hcounts, hcounts.relations.trans hrelations, hembedded⟩
  · exact hentry.symbols.trans (hcounts.symbols.trans hsymbols)
  · rw [hentry.files, hcounts.files, hfiles]
    rfl

end Database

end SymbolAtlas
