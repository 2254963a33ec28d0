import TierCache.Proofs.Store.LogStore

/-!
A directory that is opened anew gives the rows that were in it: one log after another is replayed,
and a rewriting on the way leaves the logs still to come as they are.
-/
namespace TierCache.LogStore
open Std

/-- A directory of known rows while it is opened: the logs opened so far, and those still to come
by their names. -/
structure Opening (index : String → ExtTreeMap String Entry) (s : LogStore) (names : List String) :
    Prop where
  present : s.directory.presence = .present
  opened {region : String} {log : RegionLog} (h : s.logs[region]? = some log) :
    region ≠ "" ∧ log.name = FileName.ofRegion region ∧ log.index = index region ∧
      ∃ text, RegionLog.Logged s.directory log text
  waiting {name : String} (h : name ∈ names) : ∃ region log text, region ≠ "" ∧
    name = FileName.ofRegion region ∧ log.name = name ∧ log.index = index region ∧
      RegionLog.Logged s.directory log text
  file {name : String} (h : (s.directory.nodes[name]?).isSome) :
    name ∈ names ∨ ∃ region log, s.logs[region]? = some log ∧ name = FileName.ofRegion region
  whole {region : String} (h : index region ≠ ∅) :
    region ≠ "" ∧ (FileName.ofRegion region ∈ names ∨ (s.logs[region]?).isSome)

namespace Opening

variable {index : String → ExtTreeMap String Entry} {s : LogStore}

/-- Every file is the log of a region with a name. -/
theorem region_of_file {names : List String} (h : Opening index s names) {name : String}
    (hsome : (s.directory.nodes[name]?).isSome) :
    ∃ region, region ≠ "" ∧ name = FileName.ofRegion region := by
  obtain hwaits | ⟨region, log, hlog, hname⟩ := h.file hsome
  · obtain ⟨region, -, -, hregion, hname, -⟩ := h.waiting hwaits
    exact ⟨region, hregion, hname⟩
  · exact ⟨region, (h.opened hlog).1, hname⟩

theorem beside {names : List String} (h : Opening index s names) (name : String) :
    s.directory.nodes[FileName.rewritten name]? = none := by
  by_contra hsome
  obtain ⟨other, -, hname⟩ := h.region_of_file (Option.isSome_iff_ne_none.2 hsome)
  exact FileName.rewritten_ne name other hname

/-- One log is opened. -/
theorem next {name : String} {names : List String} (h : Opening index s (name :: names))
    (hnew : name ∉ names) {region : String} (hregion : region ≠ "")
    (hname : name = FileName.ofRegion region) {log : RegionLog} {d : Directory} {text : List Char}
    (hlog : log.name = name) (hindex : log.index = index region)
    (hlogged : RegionLog.Logged d log text)
    (hothers : ∀ other, other ≠ name → d.nodes[other]? = s.directory.nodes[other]?) :
    Opening index ⟨d, s.logs.insert region log⟩ names := by
  have hget (other : String) : (s.logs.insert region log)[other]? =
      if region = other then some log else s.logs[other]? := Tree.get_insert _ _ _ _
  refine ⟨hlogged.present, ?_, ?_, ?_, ?_⟩
  · intro other otherLog hother
    rw [hget] at hother
    split at hother
    · rename_i heq
      cases hother
      subst heq
      exact ⟨hregion, hlog.trans hname, hindex, text, hlogged⟩
    · rename_i hne
      obtain ⟨hsome, hotherName, hotherIndex, otherText, hotherLogged⟩ := h.opened hother
      refine ⟨hsome, hotherName, hotherIndex, otherText,
        logged_of_same hotherLogged hlogged.present (hothers _ ?_)⟩
      rw [hotherName, hname]
      exact fun heq => hne (FileName.ofRegion_inj heq).symm
  · intro other hother
    obtain ⟨otherRegion, otherLog, otherText, hsome, hotherName, hotherLog, hotherIndex,
      hotherLogged⟩ := h.waiting (List.mem_cons_of_mem name hother)
    refine ⟨otherRegion, otherLog, otherText, hsome, hotherName, hotherLog, hotherIndex,
      logged_of_same hotherLogged hlogged.present (hothers _ ?_)⟩
    rw [hotherLog]
    rintro rfl
    exact hnew hother
  · intro other hsome
    by_cases hown : other = name
    · exact .inr ⟨region, log, by rw [hget, if_pos rfl], hown.trans hname⟩
    · rw [hothers other hown] at hsome
      obtain hwaits | ⟨otherRegion, otherLog, hother, hotherName⟩ := h.file hsome
      · exact .inl ((List.mem_cons.1 hwaits).resolve_left hown)
      · have hne : region ≠ otherRegion := by
          rintro rfl
          exact hown (hotherName.trans hname.symm)
        exact .inr ⟨otherRegion, otherLog, by rw [hget, if_neg hne, hother], hotherName⟩
  · intro other hsome
    rw [hget]
    obtain ⟨hother, hwaits | hopen⟩ := h.whole hsome
    · refine ⟨hother, ?_⟩
      obtain heq | hwaits := List.mem_cons.1 hwaits
      · rw [if_pos (FileName.ofRegion_inj (heq.trans hname)).symm]
        exact .inr rfl
      · exact .inl hwaits
    · refine ⟨hother, .inr ?_⟩
      split
      · rfl
      · exact hopen

theorem openAll {names : List String} (h : Opening index s names) (hnodup : names.Nodup) :
    ∃ s', s.openAll names = (.ok (), s') ∧ Opening index s' [] := by
  induction names generalizing s with
  | nil => exact ⟨s, rfl, h⟩
  | cons name names ih =>
    rw [List.nodup_cons] at hnodup
    obtain ⟨region, old, text, hregion, hname, hold, hindex, hlogged⟩ :=
      h.waiting List.mem_cons_self
    obtain ⟨log, d, hopen, hlog, hsame, ⟨after, hafter⟩, hothers⟩ :=
      RegionLog.openFile_logged hlogged
    obtain ⟨⟨last, hlast, -⟩, htidy, htidyName, htidyOthers⟩ := RegionLog.wrote_tidy hafter
    rw [hold] at hopen hlog hothers
    have hne : FileName.rewritten name ≠ name := by
      rw [hname]
      exact FileName.rewritten_ne _ region
    have hbeside : d.nodes[FileName.rewritten log.name]? = none := by
      rw [hlog, hothers _ hne]
      exact h.beside name
    have hnext := h.next hnodup.1 hregion hname (htidyName.trans hlog)
      ((htidy.trans hsame).trans hindex) hlast fun other hother =>
        (htidyOthers hbeside other (hlog ▸ hother)).trans (hothers other hother)
    obtain ⟨s', hrest, hdone⟩ := ih hnext hnodup.2
    refine ⟨s', ?_, hdone⟩
    have hfile : FileName.region? name = some region := by
      rw [hname]
      exact FileName.region?_ofRegion hregion
    simp only [LogStore.openAll, hfile, hopen]
    exact hrest

end Opening

/-- What a store stands for waits in its directory. -/
theorem Stands.opening {s : LogStore} {t : Table} (h : Stands s t) :
    Opening s.index (ofDirectory s.directory) s.directory.nodes.keys := by
  refine ⟨h.present, ?_, ?_, fun hsome => .inl (Tree.mem_keys_iff.2 hsome), ?_⟩
  · intro region log hlog
    rw [ofDirectory, ExtTreeMap.getElem?_empty] at hlog
    cases hlog
  · intro name hname
    obtain ⟨region, log, hlog, rfl⟩ := h.file (Tree.mem_keys_iff.1 hname)
    obtain ⟨hregion, hlogName, text, hlogged⟩ := h.log hlog
    exact ⟨region, log, text, hregion, rfl, hlogName, (index_of_log hlog).symm, hlogged⟩
  · intro region hsome
    cases hlog : s.logs[region]? with
    | none => exact absurd (index_of_none hlog) hsome
    | some log =>
      obtain ⟨hregion, hname, text, hlogged⟩ := h.log hlog
      refine ⟨hregion, .inl (Tree.mem_keys_iff.2 ?_)⟩
      rw [← hname, hlogged.file]
      rfl

/-- Once all logs are open the store stands for the same table again. -/
theorem Opening.stands {index : String → ExtTreeMap String Entry} {s : LogStore}
    (h : Opening index s []) {t : Table}
    (hrows : ∀ id : RowId, t.rows[id]? = (index id.region)[id.key]?)
    (hnamed : t.Named) : Stands s t := by
  have hindex (region : String) : s.index region = index region := by
    cases hlog : s.logs[region]? with
    | some log => rw [index_of_log hlog, (h.opened hlog).2.2.1]
    | none =>
      rw [index_of_none hlog]
      by_contra hsome
      obtain ⟨-, hwaits | hopen⟩ := h.whole (Ne.symm hsome)
      · exact List.not_mem_nil hwaits
      · rw [hlog] at hopen
        cases hopen
  refine ⟨h.present, ?_, fun hsome => (h.file hsome).resolve_left List.not_mem_nil, ?_, hnamed⟩
  · intro region log hlog
    obtain ⟨hregion, hname, -, hlogged⟩ := h.opened hlog
    exact ⟨hregion, hname, hlogged⟩
  · intro id
    rw [hrows, hindex]

/-- Opening the directory of a store anew gives a store for the same table. -/
theorem Stands.reopen {s : LogStore} {t : Table} (h : Stands s t) :
    ∃ s', (ofDirectory s.directory).load = (.ok (), s') ∧ Stands s' t := by
  obtain ⟨s', hopen, hdone⟩ := h.opening.openAll ExtTreeMap.nodup_keys
  refine ⟨s', ?_, hdone.stands h.rows h.named⟩
  simp only [load, ofDirectory, Directory.create, Directory.names, h.present, if_true]
  exact hopen

/-- A directory without files, or none yet, is opened without any log. -/
theorem load_empty {d : Directory} (hfree : d.presence ≠ .blocked) (hempty : d.nodes = ∅) :
    (ofDirectory d).load = (.ok (), ⟨{ d with presence := .present }, ∅⟩) := by
  have hcreate : d.create = (.ok (), { d with presence := .present }) := by
    obtain ⟨presence, nodes, next⟩ := d
    cases presence with
    | blocked => exact absurd rfl hfree
    | present | missing => rfl
  simp only [load, ofDirectory, hcreate, Directory.names, if_true, hempty]
  rfl

/-- A directory without files, or none yet, is opened as an empty store. -/
theorem stands_load_empty {d : Directory} (hfree : d.presence ≠ .blocked) (hempty : d.nodes = ∅) :
    ∃ s, (ofDirectory d).load = (.ok (), s) ∧ Stands s .empty := by
  refine ⟨_, load_empty hfree hempty, rfl, ?_, ?_, ?_, ?_⟩
  · intro region log hlog
    rw [ExtTreeMap.getElem?_empty] at hlog
    cases hlog
  · intro name hsome
    rw [hempty, ExtTreeMap.getElem?_empty] at hsome
    cases hsome
  · intro id
    exact ExtTreeMap.getElem?_empty.trans ExtTreeMap.getElem?_empty.symm
  · exact Table.named_empty

end TierCache.LogStore
