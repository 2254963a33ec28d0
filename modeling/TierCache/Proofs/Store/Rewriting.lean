import TierCache.Proofs.Store.RegionLog

/-!
The count of a log's records, and when its file is rewritten. A log counts what is in its file, and a
file in which dead records dominate is rewritten at the end of the change that made them do so. A
rewriting changes neither the entries nor what the file replays to.

A record of an entry that JSON cannot hold is written but never read back. What is counted and what is
replayed agree as long as there is none; that is the condition `ok` of what follows, and the bound on
the count does not depend on it.
-/
namespace TierCache
open Std

namespace RegionLog

/-- The file of an open log holds these records and nothing else; they are what the log counts and
what its entries come from. -/
structure Holds (ok : Prop) (d : Directory) (l : RegionLog) (rs : List LogRecord) : Prop where
  present : d.presence = .present
  file : d.nodes[l.name]? = some (.file l.serial (LogRecord.textOf rs).utf8Encode)
  keyed : LogRecord.Keyed l.index
  storable (h : ok) : ∀ r ∈ rs, r.Storable
  index (h : ok) : LogRecord.replay rs = l.index
  records (h : ok) : rs.length = l.records

/-- What a change leaves of the log of this name: these entries, no reason to rewrite the file, and
every other file as it was. -/
structure Settles (ok : Prop) (d : Directory) (name : String) (index : ExtTreeMap String Entry)
    (out : RegionLog × Directory) : Prop where
  same : out.1.name = name
  index : out.1.index = index
  few : out.1.needsRewrite = false
  holds : ∃ rs, Holds ok out.2 out.1 rs
  others (other : String) (hother : other ≠ name) : out.2.nodes[other]? = d.nodes[other]?

/-- A change after the log was opened is one to the directory as it was before. -/
theorem Settles.since {ok : Prop} {d before : Directory} {name : String}
    {index : ExtTreeMap String Entry} {out : RegionLog × Directory} (h : Settles ok d name index out)
    (hothers : ∀ other, other ≠ name → d.nodes[other]? = before.nodes[other]?) :
    Settles ok before name index out :=
  ⟨h.same, h.index, h.few, h.holds, fun other hother =>
    (h.others other hother).trans (hothers other hother)⟩

theorem bound_of_few {l : RegionLog} (h : l.needsRewrite = false) :
    l.records < 1024 ∨ l.records ≤ 2 * l.index.size := by
  rw [needsRewrite, Bool.and_eq_false_iff] at h
  obtain hsmall | hlive := h
  · exact .inl (Nat.not_le.1 (of_decide_eq_false hsmall))
  · exact .inr (Nat.mul_comm _ 2 ▸ Nat.not_lt.1 (of_decide_eq_false hlive))

section
variable {ok : Prop} {d : Directory} {l : RegionLog} {rs : List LogRecord} (h : Holds ok d l rs)
include h

/-- The file was not touched. -/
theorem Holds.of_same {d' : Directory} (hpresent : d'.presence = .present)
    (hfile : d'.nodes[l.name]? = d.nodes[l.name]?) : Holds ok d' l rs :=
  ⟨hpresent, hfile.trans h.file, h.keyed, h.storable, h.index, h.records⟩

theorem Holds.allStorable (hok : ok) : LogRecord.AllStorable l.index :=
  h.index hok ▸ LogRecord.allStorable_replay (h.storable hok)

theorem Holds.append {r : LogRecord} (hr : ok → r.Storable) :
    Holds ok (l.append d r).2 (l.append d r).1 (rs ++ [r]) := by
  have htext : LogRecord.textOf (rs ++ [r]) = LogRecord.textOf rs ++ (r.text ++ ['\n']) := by
    rw [LogRecord.textOf_append]
    exact congrArg _ (List.flatMap_singleton _ _)
  rw [append_eq h.file]
  constructor
  case present => exact h.present
  case file =>
    rw [htext, List.utf8Encode_append, ← LogRecord.line_eq]
    exact (Tree.get_insert _ _ _ _).trans (if_pos rfl)
  case keyed => exact LogRecord.keyed_apply h.keyed r
  case storable =>
    intro hok
    rw [List.forall_mem_append, List.forall_mem_singleton]
    exact ⟨h.storable hok, hr hok⟩
  case index =>
    intro hok
    rw [LogRecord.replay_append, h.index hok]
    rfl
  case records =>
    intro hok
    rw [List.length_append, h.records hok]
    rfl

theorem Holds.others_append (r : LogRecord) {other : String} (hother : other ≠ l.name) :
    (l.append d r).2.nodes[other]? = d.nodes[other]? := by
  rw [append_eq h.file]
  exact (Tree.get_insert _ _ _ _).trans (if_neg hother.symm)

/-- A rewriting leaves one record for each entry. -/
theorem Holds.rewrite (hbeside : d.nodes[FileName.rewritten l.name]? = none) :
    ∃ l' d', l.rewrite d = (.ok l', d') ∧ l'.name = l.name ∧ l'.index = l.index ∧
      l'.records = l.index.size ∧ Holds ok d' l' (l.index.values.map .put) ∧
      ∀ other, other ≠ l.name → d'.nodes[other]? = d.nodes[other]? := by
  obtain ⟨hdirectory, -⟩ | ⟨serial, next, hrewrite⟩ := rewrite_cases h.present h.file
  · rw [hbeside] at hdirectory
    cases hdirectory
  · refine ⟨_, _, hrewrite, rfl, rfl, rfl, ⟨rfl, ?_, h.keyed, fun hok => ?_, fun _ => ?_,
      fun _ => ?_⟩, fun other hother => ?_⟩
    · rw [← compacted_eq]
      exact (Tree.get_insert _ _ _ _).trans (if_pos rfl)
    · exact LogRecord.storable_values (h.allStorable hok)
    · exact LogRecord.replay_values h.keyed
    · exact LogRecord.length_values l.index
    · refine (Tree.get_insert _ _ _ _).trans ((if_neg hother.symm).trans ?_)
      rw [Tree.erase_of_none _ hbeside]

theorem Holds.settles (hfew : l.needsRewrite = false) : Settles ok d l.name l.index (l, d) :=
  ⟨rfl, rfl, hfew, ⟨rs, h⟩, fun _ _ => rfl⟩

theorem Holds.tidy (hbeside : d.nodes[FileName.rewritten l.name]? = none) :
    Settles ok d l.name l.index (l.tidy d) := by
  rw [RegionLog.tidy]
  split
  · obtain ⟨l', d', hrewrite, hname, hindex, hrecords, hholds, hothers⟩ := h.rewrite hbeside
    rw [hrewrite]
    refine ⟨hname, hindex, ?_, ⟨_, hholds⟩, hothers⟩
    have hsize : l'.index.size * 2 < l'.records → False := by
      rw [hindex, hrecords]
      omega
    simp only [needsRewrite, Bool.and_eq_false_iff]
    exact .inr (decide_eq_false hsize)
  · rename_i hfew
    exact h.settles (Bool.not_eq_true _ ▸ hfew)

/-- A record is written and the log is tidied up. -/
theorem Holds.record (hbeside : d.nodes[FileName.rewritten l.name]? = none) {r : LogRecord}
    (hr : ok → r.Storable) :
    Settles ok d l.name (r.apply l.index) ((l.append d r).1.tidy (l.append d r).2) := by
  have hne : FileName.rewritten l.name ≠ l.name := by
    intro heq
    rw [heq, h.file] at hbeside
    cases hbeside
  obtain ⟨hsame, hindex, hfew, hholds, hothers⟩ :=
    (h.append hr).tidy ((h.others_append r hne).trans hbeside)
  exact ⟨hsame, hindex, hfew, hholds, fun other hother =>
    (hothers other hother).trans (h.others_append r hother)⟩

theorem Holds.put (hbeside : d.nodes[FileName.rewritten l.name]? = none) {e : Entry}
    (he : ok → e.Storable) : Settles ok d l.name (l.index.insert e.key e) (l.put d e) :=
  h.record hbeside (r := .put e) he

theorem Holds.remove (hbeside : d.nodes[FileName.rewritten l.name]? = none)
    (hfew : l.needsRewrite = false) (key : String) :
    Settles ok d l.name (l.index.erase key) (l.remove d key).2 := by
  rw [RegionLog.remove]
  split
  · exact h.record hbeside (r := .delete key) fun _ => trivial
  · rename_i hkey
    have hnone : l.index[key]? = none := by simpa using hkey
    rw [Tree.erase_of_none _ hnone]
    exact h.settles hfew

end

/-! ### Opening -/

/-- A file of whole lines is opened as it is. -/
theorem openFile_lines {d : Directory} (hpresent : d.presence = .present) {name : String}
    {serial : Nat} {rs : List LogRecord}
    (hfile : d.nodes[name]? = some (.file serial (LogRecord.textOf rs).utf8Encode)) :
    openFile d name = (.ok ⟨name, serial, LogRecord.replay (LogRecord.ofText (LogRecord.textOf rs)),
      (LogRecord.ofText (LogRecord.textOf rs)).length⟩, d) := by
  have hended : ¬ lacksEnd (LogRecord.textOf rs) = true := by
    rw [lacksEnd_iff, not_not]
    exact LogRecord.ended_textOf rs
  rw [openFile_eq hpresent hfile, if_neg hended]

theorem holds_opened {ok : Prop} {d : Directory} (hpresent : d.presence = .present) {name : String}
    {serial : Nat} {rs : List LogRecord}
    (hfile : d.nodes[name]? = some (.file serial (LogRecord.textOf rs).utf8Encode))
    (hstorable : ok → ∀ r ∈ rs, r.Storable) :
    Holds ok d ⟨name, serial, LogRecord.replay (LogRecord.ofText (LogRecord.textOf rs)),
      (LogRecord.ofText (LogRecord.textOf rs)).length⟩ rs where
  present := hpresent
  file := hfile
  keyed := LogRecord.keyed_replay _
  storable := hstorable
  index hok := by rw [LogRecord.ofText_textOf (hstorable hok)]
  records hok := by rw [LogRecord.ofText_textOf (hstorable hok)]

theorem holds_created {ok : Prop} {d : Directory} {name : String} {serial next : Nat} :
    Holds ok ⟨.present, d.nodes.insert name (.file serial .empty), next⟩ ⟨name, serial, ∅, 0⟩ [] where
  present := rfl
  file := (Tree.get_insert _ _ _ _).trans (if_pos rfl)
  keyed := LogRecord.keyed_replay []
  storable _ := nofun
  index _ := rfl
  records _ := rfl

/-- A file is opened as the log that wrote it. -/
theorem Holds.openFile {ok : Prop} {d : Directory} {l : RegionLog} {rs : List LogRecord}
    (h : Holds ok d l rs) (hok : ok) : openFile d l.name = (.ok l, d) := by
  rw [openFile_lines h.present h.file, LogRecord.ofText_textOf (h.storable hok), h.index hok,
    h.records hok]

/-- What further records leave of a log and its directory. -/
def appendAll (start : RegionLog × Directory) (rs : List LogRecord) : RegionLog × Directory :=
  rs.foldl (fun (l, d) r => l.append d r) start

theorem Holds.appendAll {ok : Prop} {d : Directory} {l : RegionLog} {rs : List LogRecord}
    (h : Holds ok d l rs) {more : List LogRecord} (hmore : ok → ∀ r ∈ more, r.Storable) :
    Holds ok (RegionLog.appendAll (l, d) more).2 (RegionLog.appendAll (l, d) more).1 (rs ++ more) ∧
      (RegionLog.appendAll (l, d) more).1.name = l.name ∧ ∀ other, other ≠ l.name →
        (RegionLog.appendAll (l, d) more).2.nodes[other]? = d.nodes[other]? := by
  induction more generalizing d l rs with
  | nil => exact ⟨(List.append_nil rs).symm ▸ h, rfl, fun _ _ => rfl⟩
  | cons r more ih =>
    obtain ⟨hholds, hname, hothers⟩ := ih (h.append fun hok => hmore hok r List.mem_cons_self)
      fun hok r hr => hmore hok r (List.mem_cons_of_mem _ hr)
    rw [List.append_assoc] at hholds
    exact ⟨hholds, hname, fun other hother =>
      (hothers other hother).trans (h.others_append r hother)⟩

/-- Rewritten at any moment, a log keeps its entries, and both the old file and the new one open as
the log that they belong to. -/
theorem Holds.rewrite_opens {ok : Prop} {d : Directory} {l : RegionLog} {rs : List LogRecord}
    (h : Holds ok d l rs) (hok : ok) (hbeside : d.nodes[FileName.rewritten l.name]? = none) :
    ∃ l' d', l.rewrite d = (.ok l', d') ∧ l'.index = l.index ∧
      RegionLog.openFile d l.name = (.ok l, d) ∧ RegionLog.openFile d' l.name = (.ok l', d') := by
  obtain ⟨l', d', hrewrite, hname, hindex, -, hholds, -⟩ := h.rewrite hbeside
  exact ⟨l', d', hrewrite, hindex, h.openFile hok, hname ▸ hholds.openFile hok⟩

end RegionLog
end TierCache
