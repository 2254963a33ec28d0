import TierCache.Proofs.Store.LogText
import TierCache.Proofs.Tree

/-!
An open log and its file agree: replaying the file gives the index, after every write and every
rewriting, and so the log can be opened again at any time.
-/
namespace TierCache
open Std

namespace LogRecord

theorem replay_append (rs others : List LogRecord) :
    replay (rs ++ others) = others.foldl apply (replay rs) := List.foldl_append

/-- Every entry stands under its own key. -/
def Keyed (index : ExtTreeMap String Entry) : Prop :=
  ∀ (key : String) (e : Entry), index[key]? = some e → e.key = key

/-- JSON can hold every entry. -/
def AllStorable (index : ExtTreeMap String Entry) : Prop :=
  ∀ (key : String) (e : Entry), index[key]? = some e → e.Storable

theorem keyed_apply {index : ExtTreeMap String Entry} (h : Keyed index) (r : LogRecord) :
    Keyed (r.apply index) := by
  intro key e he
  cases r with
  | put entry =>
    rw [apply, Tree.get_insert] at he
    split at he
    · cases he
      assumption
    · exact h key e he
  | delete other =>
    rw [apply, Tree.get_erase] at he
    split at he
    · cases he
    · exact h key e he

theorem allStorable_apply {index : ExtTreeMap String Entry} (h : AllStorable index) {r : LogRecord}
    (hr : r.Storable) : AllStorable (r.apply index) := by
  intro key e he
  cases r with
  | put entry =>
    rw [apply, Tree.get_insert] at he
    split at he
    · cases he
      exact hr
    · exact h key e he
  | delete other =>
    rw [apply, Tree.get_erase] at he
    split at he
    · cases he
    · exact h key e he

theorem keyed_replay (rs : List LogRecord) : Keyed (replay rs) := by
  have run (rs : List LogRecord) (index : ExtTreeMap String Entry) (h : Keyed index) :
      Keyed (rs.foldl apply index) := by
    induction rs generalizing index with
    | nil => exact h
    | cons r rs ih => exact ih _ (keyed_apply h r)
  exact run rs ∅ (by intro key e he; simp at he)

theorem allStorable_replay {rs : List LogRecord} (h : ∀ r ∈ rs, r.Storable) :
    AllStorable (replay rs) := by
  have run (rs : List LogRecord) (h : ∀ r ∈ rs, r.Storable) (index : ExtTreeMap String Entry)
      (hindex : AllStorable index) : AllStorable (rs.foldl apply index) := by
    induction rs generalizing index with
    | nil => exact hindex
    | cons r rs ih =>
      rw [List.forall_mem_cons] at h
      exact ih h.2 _ (allStorable_apply hindex h.1)
  exact run rs h ∅ (by intro key e he; simp at he)

theorem storable_values {index : ExtTreeMap String Entry} (h : AllStorable index) :
    ∀ r ∈ index.values.map put, r.Storable := by
  intro r hr
  rw [Tree.values_eq, List.map_map, List.mem_map] at hr
  obtain ⟨⟨key, e⟩, hrow, rfl⟩ := hr
  exact h key e (ExtTreeMap.mem_toList_iff_getElem?_eq_some.1 hrow)

theorem length_values (index : ExtTreeMap String Entry) :
    (index.values.map put).length = index.size := by
  rw [Tree.values_eq, List.length_map, List.length_map, ExtTreeMap.length_toList]

/-- One record for each entry replays to the entries. -/
theorem replay_values {index : ExtTreeMap String Entry} (h : Keyed index) :
    replay (index.values.map put) = index := by
  have hinsert (rows : List (String × Entry)) (hrows : ∀ row ∈ rows, row.2.key = row.1)
      (m : ExtTreeMap String Entry) :
      (rows.map fun row => put row.2).foldl apply m = m.insertMany rows := by
    induction rows generalizing m with
    | nil => rw [List.map_nil, List.foldl_nil, ExtTreeMap.insertMany_nil]
    | cons row rows ih =>
      rw [List.forall_mem_cons] at hrows
      obtain ⟨key, e⟩ := row
      rw [List.map_cons, List.foldl_cons, ih hrows.2, ExtTreeMap.insertMany_cons, apply, hrows.1]
  have hrows : ∀ row ∈ index.toList, row.2.key = row.1 := by
    rintro ⟨key, e⟩ hrow
    exact h key e (ExtTreeMap.mem_toList_iff_getElem?_eq_some.1 hrow)
  rw [Tree.values_eq, List.map_map, replay]
  refine (hinsert index.toList hrows ∅).trans ?_
  rw [← ExtTreeMap.ofList_eq_insertMany_empty, Tree.ofList_of_perm (.refl _)]

theorem line_eq (r : LogRecord) : r.line = (r.text ++ ['\n']).utf8Encode := by
  have hend : "\n".toByteArray = ['\n'].utf8Encode := rfl
  rw [line, String.toUTF8_eq_toByteArray, String.toByteArray_append, Json.render,
    String.toByteArray_ofList, hend, List.utf8Encode_append, text]

end LogRecord

namespace RegionLog

/-- The name of an open log leads to the open file, and the file is a text of whole lines that
replays to the index. -/
structure Logged (d : Directory) (l : RegionLog) (text : List Char) : Prop where
  present : d.presence = .present
  file : d.nodes[l.name]? = some (.file l.serial text.utf8Encode)
  ended : Text.Ended text
  index : LogRecord.replay (LogRecord.ofText text) = l.index
  records : (LogRecord.ofText text).length = l.records
  storable : LogRecord.AllStorable l.index

/-- A file is written on or written anew with storable records. -/
def Follows (text after : List Char) : Prop :=
  ∃ rs : List LogRecord, (∀ r ∈ rs, r.Storable) ∧
    (after = text ++ LogRecord.textOf rs ∨ after = LogRecord.textOf rs)

/-- What a change to a log leaves: the log with its new index, and every other file as it was. The
file beside the log is gone if there was one. -/
structure Wrote (d : Directory) (l : RegionLog) (text : List Char)
    (index : ExtTreeMap String Entry) (out : RegionLog × Directory) : Prop where
  logged : ∃ after, Logged out.2 out.1 after ∧ Follows text after
  index : out.1.index = index
  name : out.1.name = l.name
  others (hbeside : d.nodes[FileName.rewritten l.name]? = none) (other : String)
    (hother : other ≠ l.name) : out.2.nodes[other]? = d.nodes[other]?

/-- A record is written behind what the open file holds. -/
theorem append_eq {d : Directory} {l : RegionLog} {bytes : ByteArray}
    (hfile : d.nodes[l.name]? = some (.file l.serial bytes)) (r : LogRecord) : l.append d r =
      ({ l with index := r.apply l.index, records := l.records + 1 },
        { d with nodes := d.nodes.insert l.name (.file l.serial (bytes ++ r.line)) }) := by
  simp only [append, Directory.append, hfile, if_true]

section
variable {d : Directory} {l : RegionLog} {text : List Char} (h : Logged d l text)
include h

theorem Logged.keyed : LogRecord.Keyed l.index := h.index ▸ LogRecord.keyed_replay _

theorem Logged.wrote_self : Wrote d l text l.index (l, d) where
  logged := ⟨text, h, [], nofun, .inl (List.append_nil text).symm⟩
  index := rfl
  name := rfl
  others _ _ _ := rfl

theorem logged_append {r : LogRecord} (hr : r.Storable) :
    Logged (l.append d r).2 (l.append d r).1 (text ++ (r.text ++ ['\n'])) := by
  have hread : LogRecord.ofText (text ++ (r.text ++ ['\n'])) = LogRecord.ofText text ++ [r] := by
    rw [LogRecord.ofText_append h.ended, LogRecord.ofText_text hr]
  rw [append_eq h.file, LogRecord.line_eq, ← List.utf8Encode_append]
  refine ⟨h.present, ?_, h.ended.append (Text.ended_snoc r.text), ?_, ?_, ?_⟩
  · rw [Tree.get_insert, if_pos rfl]
  · rw [hread, LogRecord.replay_append, h.index]
    rfl
  · rw [hread, List.length_append, h.records]
    rfl
  · exact LogRecord.allStorable_apply h.storable hr

theorem others_append (r : LogRecord) {other : String} (hother : other ≠ l.name) :
    (l.append d r).2.nodes[other]? = d.nodes[other]? := by
  rw [append_eq h.file]
  exact (Tree.get_insert _ _ _ _).trans (if_neg hother.symm)

end

theorem compacted_eq (l : RegionLog) :
    l.compacted = (LogRecord.textOf (l.index.values.map .put)).utf8Encode := by
  have run (es : List Entry) (bytes : ByteArray) :
      es.foldl (fun bytes e => bytes ++ (LogRecord.put e).line) bytes =
        bytes ++ (LogRecord.textOf (es.map .put)).utf8Encode := by
    induction es generalizing bytes with
    | nil => exact (ByteArray.append_empty).symm
    | cons e es ih =>
      rw [List.foldl_cons, ih, LogRecord.line_eq, ByteArray.append_assoc, ← List.utf8Encode_append]
      rfl
  rw [compacted, run, ByteArray.empty_append]

/-- Writing a whole file fails only where a directory has the name, and then changes nothing. -/
theorem write_cases {d : Directory} (h : d.presence = .present) (name : String) (bytes : ByteArray) :
    (d.nodes[name]? = some .directory ∧ ∃ e, d.write name bytes = (.error e, d)) ∨
      ∃ serial next, d.write name bytes =
        (.ok (), ⟨.present, d.nodes.insert name (.file serial bytes), next⟩) := by
  cases hnode : d.nodes[name]? with
  | none => exact .inr ⟨d.next, d.next + 1, by simp only [Directory.write, h, hnode]⟩
  | some node =>
    cases node with
    | file serial old => exact .inr ⟨serial, d.next, by simp only [Directory.write, h, hnode]⟩
    | directory =>
      exact .inl ⟨rfl, .ofSystem "is a directory", by simp only [Directory.write, h, hnode]⟩

/-- A rewriting puts a file of the live entries in place of the log's file, or fails and changes
nothing, where a directory stands in its way. -/
theorem rewrite_cases {d : Directory} (hpresent : d.presence = .present) {l : RegionLog}
    {old : ByteArray} (hfile : d.nodes[l.name]? = some (.file l.serial old)) :
    (d.nodes[FileName.rewritten l.name]? = some .directory ∧ ∃ e, l.rewrite d = (.error e, d)) ∨
      ∃ serial next, l.rewrite d = (.ok { l with serial, records := l.index.size },
        ⟨.present, (d.nodes.erase (FileName.rewritten l.name)).insert l.name
          (.file serial l.compacted), next⟩) := by
  obtain ⟨hbeside, e, hwrite⟩ | ⟨serial, next, hwrite⟩ :=
    write_cases hpresent (FileName.rewritten l.name) l.compacted
  · exact .inl ⟨hbeside, e, by simp only [rewrite, hwrite]⟩
  · refine .inr ⟨serial, next, ?_⟩
    have htarget : ∃ s bytes, (d.nodes.insert (FileName.rewritten l.name)
        (.file serial l.compacted))[l.name]? = some (.file s bytes) := by
      rw [Tree.get_insert]
      split
      · exact ⟨_, _, rfl⟩
      · exact ⟨_, _, hfile⟩
    obtain ⟨s, bytes, htarget⟩ := htarget
    have hsource : (d.nodes.insert (FileName.rewritten l.name)
        (.file serial l.compacted))[FileName.rewritten l.name]? = some (.file serial l.compacted) := by
      rw [Tree.get_insert, if_pos rfl]
    have hopen : ((d.nodes.erase (FileName.rewritten l.name)).insert l.name
        (.file serial l.compacted))[l.name]? = some (.file serial l.compacted) := by
      rw [Tree.get_insert, if_pos rfl]
    simp only [rewrite, hwrite, Directory.rename, hsource, htarget, Tree.erase_insert,
      Directory.openAppend, hopen]

section
variable {d : Directory} {l : RegionLog} {text : List Char} (h : Logged d l text)
include h

theorem wrote_rewrite {serial next : Nat} : Wrote d l text l.index
    ({ l with serial, records := l.index.size },
      ⟨.present, (d.nodes.erase (FileName.rewritten l.name)).insert l.name
        (.file serial l.compacted), next⟩) := by
  have hstorable := LogRecord.storable_values h.storable
  have hread := LogRecord.ofText_textOf hstorable
  refine ⟨⟨LogRecord.textOf (l.index.values.map .put), ?_, _, hstorable, .inr rfl⟩, rfl, rfl, ?_⟩
  · refine ⟨rfl, ?_, LogRecord.ended_textOf _, ?_, ?_, h.storable⟩
    · rw [Tree.get_insert, if_pos rfl, compacted_eq]
    · rw [hread]
      exact LogRecord.replay_values h.keyed
    · rw [hread]
      exact LogRecord.length_values l.index
  · intro hbeside other hother
    rw [Tree.get_insert, if_neg hother.symm, Tree.erase_of_none _ hbeside]

theorem wrote_tidy : Wrote d l text l.index (l.tidy d) := by
  rw [tidy]
  split
  · obtain ⟨-, e, hrewrite⟩ | ⟨serial, next, hrewrite⟩ := rewrite_cases h.present h.file
    · rw [hrewrite]
      exact h.wrote_self
    · rw [hrewrite]
      exact wrote_rewrite h
  · exact h.wrote_self

/-- A record is written and the log is tidied up. -/
theorem wrote_record {r : LogRecord} (hr : r.Storable) :
    Wrote d l text (r.apply l.index) ((l.append d r).1.tidy (l.append d r).2) := by
  obtain ⟨⟨after, hlogged, rs, hrs, hafter⟩, hindex, hname, hothers⟩ :=
    wrote_tidy (logged_append h hr)
  refine ⟨⟨after, hlogged, ?_⟩, hindex, hname, fun hbeside other hother => ?_⟩
  · obtain rfl | rfl := hafter
    · refine ⟨r :: rs, List.forall_mem_cons.2 ⟨hr, hrs⟩, .inl ?_⟩
      rw [List.append_assoc]
      rfl
    · exact ⟨rs, hrs, .inr rfl⟩
  · have hne : FileName.rewritten l.name ≠ l.name := by
      intro heq
      rw [heq, h.file] at hbeside
      cases hbeside
    rw [hothers ((others_append h r hne).trans hbeside) other hother, others_append h r hother]

theorem wrote_put {e : Entry} (he : e.Storable) :
    Wrote d l text (l.index.insert e.key e) (l.put d e) := wrote_record h (r := .put e) he

theorem wrote_remove (key : String) : Wrote d l text (l.index.erase key) (l.remove d key).2 := by
  rw [remove]
  split
  · exact wrote_record h (r := .delete key) trivial
  · rename_i hkey
    have hnone : l.index[key]? = none := by simpa using hkey
    rw [Tree.erase_of_none _ hnone]
    exact h.wrote_self

end

/-! ### Opening -/

theorem contents_of_file {d : Directory} {name : String} {serial : Nat} {text : List Char}
    (hfile : d.nodes[name]? = some (.file serial text.utf8Encode)) : contents d name = .ok text := by
  have hvalid : text.utf8Encode.IsValidUTF8 := ⟨text, rfl⟩
  have hof : String.fromUTF8 text.utf8Encode hvalid = String.ofList text := by
    rw [← String.toByteArray_inj, String.toByteArray_ofList]
    rfl
  simp only [contents, Directory.read, hfile, String.fromUTF8?, dif_pos hvalid, hof,
    String.toList_ofList]

/-- A file that is not a text cannot be opened. -/
theorem openFile_invalid {d : Directory} {name : String} {serial : Nat} {bytes : ByteArray}
    (hfile : d.nodes[name]? = some (.file serial bytes)) (hinvalid : ¬ bytes.IsValidUTF8) :
    openFile d name = (.error (.ofSystem "stream did not contain valid UTF-8"), d) := by
  simp only [openFile, contents, Directory.read, hfile, String.fromUTF8?, dif_neg hinvalid]

/-- A log whose file is not there yet. -/
theorem openFile_none {d : Directory} (hpresent : d.presence = .present) {name : String}
    (hnone : d.nodes[name]? = none) :
    openFile d name = (.ok ⟨name, d.next, ∅, 0⟩,
      ⟨.present, d.nodes.insert name (.file d.next .empty), d.next + 1⟩) := by
  simp only [openFile, contents, Directory.read, hnone, Directory.openAppend, hpresent]
  rfl

/-- Whether the last line of a text lacks its end. -/
def lacksEnd (text : List Char) : Bool :=
  match text.getLast? with
  | some c => c ≠ '\n'
  | none => false

theorem lacksEnd_iff (text : List Char) : lacksEnd text = true ↔ ¬ Text.Ended text := by
  unfold lacksEnd
  cases hlast : text.getLast? with
  | none =>
    rw [List.getLast?_eq_none_iff.1 hlast]
    exact iff_of_false nofun (absurd Text.ended_nil)
  | some c =>
    rw [decide_eq_true_iff, Text.Ended, hlast]
    exact not_congr ⟨fun hc _ hd => Option.some.inj hd ▸ hc, fun hended => hended c rfl⟩

/-- A log is opened with what its file replays to, and a last line without its end gets one. -/
theorem openFile_eq {d : Directory} (hpresent : d.presence = .present) {name : String}
    {serial : Nat} {text : List Char}
    (hfile : d.nodes[name]? = some (.file serial text.utf8Encode)) :
    openFile d name = (.ok ⟨name, serial, LogRecord.replay (LogRecord.ofText text),
      (LogRecord.ofText text).length⟩,
      if lacksEnd text then d.append name serial "\n".toUTF8 else d) := by
  simp only [openFile, contents_of_file hfile, Directory.openAppend, hpresent, hfile]
  rfl

/-- A log is opened with what its file replays to. The end that a last line may lack is written; it
must not change what the text is read as. -/
theorem openFile_file {d : Directory} (hpresent : d.presence = .present) {name : String}
    {serial : Nat} {text : List Char} (hfile : d.nodes[name]? = some (.file serial text.utf8Encode))
    (hclose : ¬ Text.Ended text → LogRecord.ofText (text ++ ['\n']) = LogRecord.ofText text)
    (hstorable : LogRecord.AllStorable (LogRecord.replay (LogRecord.ofText text))) :
    ∃ l d', openFile d name = (.ok l, d') ∧ l.name = name ∧
      l.index = LogRecord.replay (LogRecord.ofText text) ∧ (∃ after, Logged d' l after) ∧
      ∀ other, other ≠ name → d'.nodes[other]? = d.nodes[other]? := by
  have hopen := openFile_eq hpresent hfile
  by_cases hended : Text.Ended text
  · rw [if_neg (by rwa [lacksEnd_iff, not_not])] at hopen
    exact ⟨_, _, hopen, rfl, rfl, ⟨text, hpresent, hfile, hended, rfl, rfl, hstorable⟩,
      fun _ _ => rfl⟩
  · have hend : "\n".toUTF8 = ['\n'].utf8Encode := rfl
    have happend : d.append name serial "\n".toUTF8 = { d with
        nodes := d.nodes.insert name (.file serial (text ++ ['\n']).utf8Encode) } := by
      simp only [Directory.append, hfile, if_true, hend, List.utf8Encode_append]
    rw [if_pos ((lacksEnd_iff text).2 hended), happend] at hopen
    refine ⟨_, _, hopen, rfl, rfl, ⟨text ++ ['\n'], hpresent, ?_, Text.ended_snoc text, ?_, ?_,
      hstorable⟩, fun other hother => (Tree.get_insert _ _ _ _).trans (if_neg hother.symm)⟩
    · exact (Tree.get_insert _ _ _ _).trans (if_pos rfl)
    · rw [hclose hended]
    · rw [hclose hended]

theorem openFile_logged {d : Directory} {l : RegionLog} {text : List Char} (h : Logged d l text) :
    ∃ l' d', openFile d l.name = (.ok l', d') ∧ l'.name = l.name ∧ l'.index = l.index ∧
      (∃ after, Logged d' l' after) ∧
      ∀ other, other ≠ l.name → d'.nodes[other]? = d.nodes[other]? := by
  have hopen := openFile_file h.present h.file (absurd h.ended) (by rw [h.index]; exact h.storable)
  rwa [h.index] at hopen

end RegionLog
end TierCache
