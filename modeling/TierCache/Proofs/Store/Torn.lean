import TierCache.Proofs.Store.RegionLog

/-!
Logs whose last write was cut short. A log opens again with the records that are whole, unless the
cut falls inside a character: such a file is no text and is not opened at all.
-/
namespace TierCache
open Std

/-- A change to one log. -/
inductive LogEdit
  | put (entry : Entry)
  | remove (key : String)

namespace LogEdit

/-- JSON can hold what is put. -/
def Storable : LogEdit → Prop
  | put e => e.Storable
  | remove _ => True

/-- What the change does to the entries by key. -/
def apply (index : ExtTreeMap String Entry) : LogEdit → ExtTreeMap String Entry
  | put e => index.insert e.key e
  | remove key => index.erase key

end LogEdit

namespace RegionLog

def edit : RegionLog × Directory → LogEdit → RegionLog × Directory
  | (l, d), .put e => l.put d e
  | (l, d), .remove key => (l.remove d key).2

def edits (start : RegionLog × Directory) (changes : List LogEdit) : RegionLog × Directory :=
  changes.foldl edit start

/-- The log of this name opens with these entries, and after any further changes it opens with the
changed entries. -/
def Opens (d : Directory) (name : String) (index : ExtTreeMap String Entry) : Prop :=
  ∃ l d', openFile d name = (.ok l, d') ∧ l.index = index ∧
    ∀ changes : List LogEdit, (∀ c ∈ changes, c.Storable) →
      ∃ l' d'', openFile (edits (l, d') changes).2 name = (.ok l', d'') ∧
        l'.index = changes.foldl LogEdit.apply index

theorem Follows.trans {text after last : List Char} (h : Follows text after)
    (hlast : Follows after last) : Follows text last := by
  obtain ⟨rs, hrs, hafter⟩ := h
  obtain ⟨others, hothers, rfl | rfl⟩ := hlast
  · have hboth : ∀ r ∈ rs ++ others, r.Storable := List.forall_mem_append.2 ⟨hrs, hothers⟩
    obtain rfl | rfl := hafter
    · exact ⟨_, hboth, .inl (by rw [LogRecord.textOf_append, List.append_assoc])⟩
    · exact ⟨_, hboth, .inr (by rw [LogRecord.textOf_append])⟩
  · exact ⟨others, hothers, .inr rfl⟩

section
variable {d : Directory} {l : RegionLog} {text : List Char} (h : Logged d l text)
include h

theorem wrote_edit {c : LogEdit} (hc : c.Storable) :
    Wrote d l text (c.apply l.index) (edit (l, d) c) := by
  cases c with
  | put e => exact wrote_put h hc
  | remove key => exact wrote_remove h key

/-- After any run of changes the log and its file agree, and the index is the changed one. -/
theorem logged_edits {changes : List LogEdit} (hchanges : ∀ c ∈ changes, c.Storable) :
    (∃ after, Logged (edits (l, d) changes).2 (edits (l, d) changes).1 after ∧
        Follows text after) ∧
      (edits (l, d) changes).1.index = changes.foldl LogEdit.apply l.index ∧
      (edits (l, d) changes).1.name = l.name := by
  induction changes generalizing d l text with
  | nil => exact ⟨h.wrote_self.logged, rfl, rfl⟩
  | cons c changes ih =>
    rw [List.forall_mem_cons] at hchanges
    obtain ⟨⟨middle, hmiddle, hfirst⟩, hindex, hname, -⟩ := wrote_edit h hchanges.1
    obtain ⟨⟨after, hafter, hlater⟩, hlast, hsame⟩ := ih hmiddle hchanges.2
    refine ⟨⟨after, hafter, hfirst.trans hlater⟩, ?_, hsame.trans hname⟩
    rw [List.foldl_cons, ← hindex]
    exact hlast

theorem opens_edits {changes : List LogEdit} (hchanges : ∀ c ∈ changes, c.Storable) :
    ∃ l' d', openFile (edits (l, d) changes).2 l.name = (.ok l', d') ∧
      l'.index = changes.foldl LogEdit.apply l.index := by
  obtain ⟨⟨after, hlogged, -⟩, hindex, hname⟩ := logged_edits h hchanges
  obtain ⟨l', d', hopen, -, hsame, -⟩ := openFile_logged hlogged
  rw [hname] at hopen
  exact ⟨l', d', hopen, hsame.trans hindex⟩

end

/-- A log is opened empty where there is no file or an empty one. -/
theorem openFile_empty {d : Directory} (hpresent : d.presence = .present) {name : String}
    (hempty : d.nodes[name]? = none ∨ ∃ serial, d.nodes[name]? = some (.file serial .empty)) :
    ∃ l d', openFile d name = (.ok l, d') ∧ l.name = name ∧ l.index = ∅ ∧ Logged d' l [] := by
  have hlogged (serial next : Nat) (nodes : ExtTreeMap String Node)
      (hfile : nodes[name]? = some (Node.file serial .empty)) :
      Logged ⟨.present, nodes, next⟩ ⟨name, serial, ∅, 0⟩ [] :=
    ⟨rfl, hfile, Text.ended_nil, rfl, rfl, by intro key e he; simp at he⟩
  obtain hnone | ⟨serial, hfile⟩ := hempty
  · refine ⟨_, _, openFile_none hpresent hnone, rfl, rfl, hlogged _ _ _ ?_⟩
    rw [Tree.get_insert, if_pos rfl]
  · obtain ⟨presence, nodes, next⟩ := d
    cases hpresent
    refine ⟨⟨name, serial, ∅, 0⟩, _, ?_, rfl, rfl, hlogged serial next nodes hfile⟩
    have hcontents : contents ⟨.present, nodes, next⟩ name = .ok [] := contents_of_file hfile
    simp only [openFile, hcontents, Directory.openAppend, hfile]
    rfl

/-- A file of records that was cut between two characters opens with the records that are whole. -/
theorem opens_cut {d : Directory} (hpresent : d.presence = .present) {name : String} {serial : Nat}
    {rs : List LogRecord} (hrs : ∀ r ∈ rs, r.Storable) {front back : List Char}
    (hcut : front ++ back = LogRecord.textOf rs)
    (hfile : d.nodes[name]? = some (.file serial front.utf8Encode)) :
    Opens d name (LogRecord.replay (LogRecord.within front.utf8Encode.size rs)) := by
  obtain ⟨hread, hclosed⟩ := LogRecord.ofText_cut hrs hcut
  have hstorable : LogRecord.AllStorable
      (LogRecord.replay (LogRecord.within front.utf8Encode.size rs)) :=
    LogRecord.allStorable_replay fun r hr => hrs r (LogRecord.mem_of_mem_within hr)
  obtain ⟨l, d', hopen, hname, hindex, ⟨after, hlogged⟩, -⟩ :=
    openFile_file hpresent hfile (fun hopen => (hclosed hopen).trans hread.symm)
      (by rw [hread]; exact hstorable)
  rw [hread] at hindex
  refine ⟨l, d', hopen, hindex, fun changes hchanges => ?_⟩
  rw [← hindex, ← hname]
  exact opens_edits hlogged hchanges

theorem write_file {d : Directory} (hpresent : d.presence = .present) {name : String}
    {serial : Nat} {old : ByteArray} (hfile : d.nodes[name]? = some (.file serial old))
    (bytes : ByteArray) :
    (d.write name bytes).2.presence = .present ∧
      (d.write name bytes).2.nodes[name]? = some (.file serial bytes) := by
  simp only [Directory.write, hpresent, hfile]
  exact ⟨trivial, (Tree.get_insert _ _ _ _).trans (if_pos rfl)⟩

/-- Whatever was put and removed since the log was empty, its file holds records that replay to the
index. Cut to any number of bytes that are still a text, it opens with the records whose whole line
is in them and goes on from there; cut inside a character, it does not open and stays as it is. -/
theorem opens_torn {d : Directory} (hpresent : d.presence = .present) {name : String}
    (hempty : d.nodes[name]? = none ∨ ∃ serial, d.nodes[name]? = some (.file serial .empty))
    {changes : List LogEdit} (hchanges : ∀ c ∈ changes, c.Storable) :
    ∃ l d' rs serial, openFile d name = (.ok l, d') ∧
      (edits (l, d') changes).2.nodes[name]? =
        some (.file serial (LogRecord.textOf rs).utf8Encode) ∧
      (edits (l, d') changes).1.index = LogRecord.replay rs ∧
      (edits (l, d') changes).1.index = changes.foldl LogEdit.apply ∅ ∧
      ∀ n ≤ (LogRecord.textOf rs).utf8Encode.size,
        let cut := (LogRecord.textOf rs).utf8Encode.extract 0 n
        let torn := ((edits (l, d') changes).2.write name cut).2
        (cut.IsValidUTF8 → Opens torn name (LogRecord.replay (LogRecord.within n rs))) ∧
          (¬ cut.IsValidUTF8 → openFile torn name =
            (.error (.ofSystem "stream did not contain valid UTF-8"), torn)) := by
  obtain ⟨l, d', hopen, hname, hindex, hlogged⟩ := openFile_empty hpresent hempty
  obtain ⟨⟨after, hafter, rs, hrs, htext⟩, hedited, hsame⟩ := logged_edits hlogged hchanges
  have htext : after = LogRecord.textOf rs := htext.elim id id
  subst htext
  rw [hname] at hsame
  have hfile := hafter.file
  rw [hsame] at hfile
  refine ⟨l, d', rs, _, hopen, hfile, ?_, by rw [hedited, hindex], fun n hn => ⟨?_, ?_⟩⟩
  · rw [← hafter.index, LogRecord.ofText_textOf hrs]
  · rintro ⟨front, hfront⟩
    have hwhole : front.utf8Encode ++ (LogRecord.textOf rs).utf8Encode.extract n
        (LogRecord.textOf rs).utf8Encode.size = (LogRecord.textOf rs).utf8Encode := by
      rw [← hfront, ByteArray.extract_append_extract]
      simp [hn]
    obtain ⟨back, hback⟩ := List.isPrefix_of_utf8Encode_append_eq_utf8Encode _ hwhole
    have hsize : front.utf8Encode.size = n := by
      rw [← hfront, ByteArray.size_extract]
      omega
    rw [hfront]
    obtain ⟨hstill, hwritten⟩ := write_file hafter.present hfile front.utf8Encode
    have hopens := opens_cut hstill hrs hback hwritten
    rwa [hsize] at hopens
  · intro hinvalid
    exact openFile_invalid (write_file hafter.present hfile _).2 hinvalid

/-- An entry whose key takes two bytes. -/
def accented : Entry := ⟨"r", "é", .string "v", 0, 0, none, false⟩

theorem storable_accented : accented.Storable := ⟨trivial, by decide, by decide, nofun⟩

theorem opens_torn_accented :
    ∃ l d' rs serial, openFile .empty "r.log" = (.ok l, d') ∧
      (edits (l, d') [.put accented, .remove "é"]).2.nodes["r.log"]? =
        some (.file serial (LogRecord.textOf rs).utf8Encode) ∧
      (edits (l, d') [.put accented, .remove "é"]).1.index = LogRecord.replay rs ∧
      (edits (l, d') [.put accented, .remove "é"]).1.index =
        [LogEdit.put accented, .remove "é"].foldl LogEdit.apply ∅ ∧
      ∀ n ≤ (LogRecord.textOf rs).utf8Encode.size,
        let cut := (LogRecord.textOf rs).utf8Encode.extract 0 n
        let torn := ((edits (l, d') [.put accented, .remove "é"]).2.write "r.log" cut).2
        (cut.IsValidUTF8 → Opens torn "r.log" (LogRecord.replay (LogRecord.within n rs))) ∧
          (¬ cut.IsValidUTF8 → openFile torn "r.log" =
            (.error (.ofSystem "stream did not contain valid UTF-8"), torn)) :=
  opens_torn rfl (.inl (by decide)) (by
    intro c hc
    obtain rfl | hc := List.mem_cons.1 hc
    · exact storable_accented
    · obtain rfl := List.mem_singleton.1 hc
      trivial)

/-- A log whose only write was cut inside the key's letter does not open. -/
theorem torn_accented : ∃ l d bytes n, openFile .empty "r.log" = (.ok l, d) ∧
    (l.put d accented).2.nodes["r.log"]? = some (.file l.serial bytes) ∧ n ≤ bytes.size ∧
    ∃ e, (openFile ((l.put d accented).2.write "r.log" (bytes.extract 0 n)).2 "r.log").1 =
      .error e := by
  have hnone : Directory.empty.nodes["r.log"]? = none := by decide
  obtain ⟨l, d, hopen, hname, -, hlogged⟩ := openFile_empty rfl (.inl hnone)
  have happend := logged_append hlogged (r := .put accented) storable_accented
  have hput : l.put d accented = l.append d (.put accented) := by
    have hfew : (l.append d (.put accented)).1.needsRewrite = false := by
      have hrecords : l.records = 0 := hlogged.records.symm
      simp [needsRewrite, append, hrecords, minRewrite]
    simp only [put, tidy, hfew, Bool.false_eq_true, if_false]
  have hfile : (l.append d (.put accented)).2.nodes["r.log"]? =
      some (.file l.serial ((LogRecord.put accented).text ++ ['\n']).utf8Encode) :=
    hname ▸ happend.file
  have hinvalid : ¬ (((LogRecord.put accented).text ++
      ['\n']).utf8Encode.extract 0 42).IsValidUTF8 := by
    decide +kernel
  rw [← hput] at hfile happend
  exact ⟨l, d, _, 42, hopen, hfile, by decide +kernel, _, congrArg Prod.fst
    (openFile_invalid (write_file happend.present hfile _).2 hinvalid)⟩

end RegionLog
end TierCache
