import TierCache.Proofs.Store.FileName
import TierCache.Proofs.Store.RegionLog
import TierCache.Proofs.Store.Reliable
import TierCache.Store.LogStore

/-!
A store of logs stands for a table: each region has a log that replays to the region's rows, and no
other file is taken for a log. Every call keeps this, and so does opening the directory anew.
-/
namespace TierCache
open Std

namespace Table

/-- An erased row counts if it was there. -/
theorem size_erase (t : Table) (region key : String) :
    (if (t.get? region key).isSome then 1 else 0) + (t.erase region key).rows.size =
      t.rows.size := by
  cases hrow : t.get? region key with
  | none =>
    rw [erase, Tree.erase_of_none _ hrow]
    exact Nat.zero_add _
  | some e =>
    have hlength := (Tree.toList_perm_erase t.rows hrow).length_eq
    rw [List.length_cons, ExtTreeMap.length_toList, ExtTreeMap.length_toList] at hlength
    rw [hlength, Nat.add_comm]
    rfl

end Table

namespace LogStore

/-- The store answers from the table, and its directory holds the logs of its regions and nothing
else. -/
structure Stands (s : LogStore) (t : Table) : Prop where
  present : s.directory.presence = .present
  log {region : String} {log : RegionLog} (h : s.logs[region]? = some log) :
    region ≠ "" ∧ log.name = FileName.ofRegion region ∧
      ∃ text, RegionLog.Logged s.directory log text
  file {name : String} (h : (s.directory.nodes[name]?).isSome) :
    ∃ region log, s.logs[region]? = some log ∧ name = FileName.ofRegion region
  rows (id : RowId) : t.rows[id]? = (s.index id.region)[id.key]?
  named : t.Named

theorem index_of_log {s : LogStore} {region : String} {log : RegionLog}
    (h : s.logs[region]? = some log) : s.index region = log.index := by
  rw [index, h]

theorem index_of_none {s : LogStore} {region : String} (h : s.logs[region]? = none) :
    s.index region = ∅ := by
  rw [index, h]

/-- A log in a directory in which its file was not touched. -/
theorem logged_of_same {d d' : Directory} {l : RegionLog} {text : List Char}
    (h : RegionLog.Logged d l text) (hpresent : d'.presence = .present)
    (hfile : d'.nodes[l.name]? = d.nodes[l.name]?) : RegionLog.Logged d' l text :=
  ⟨hpresent, hfile.trans h.file, h.ended, h.index, h.records, h.storable⟩

section
variable {s : LogStore} {t : Table} (h : Stands s t)
include h

theorem Stands.beside (name : String) :
    s.directory.nodes[FileName.rewritten name]? = none := by
  by_contra hsome
  obtain ⟨other, log, hlog, hname⟩ := h.file (Option.isSome_iff_ne_none.2 hsome)
  exact FileName.rewritten_ne name other hname

/-- A region without a log has no file. -/
theorem Stands.no_file {region : String} (hnone : s.logs[region]? = none) :
    s.directory.nodes[FileName.ofRegion region]? = none := by
  by_contra hsome
  obtain ⟨other, log, hlog, hname⟩ := h.file (Option.isSome_iff_ne_none.2 hsome)
  rw [FileName.ofRegion_inj hname, hlog] at hnone
  cases hnone

/-- A log with its file takes the place of the region's log, or is the first one. -/
theorem Stands.insert {region : String} (hregion : region ≠ "") {log : RegionLog} {d : Directory}
    (text : List Char) (hname : log.name = FileName.ofRegion region)
    (hlogged : RegionLog.Logged d log text)
    (hothers : ∀ other, other ≠ FileName.ofRegion region →
      d.nodes[other]? = s.directory.nodes[other]?) {after : Table}
    (hrows : ∀ id : RowId, after.rows[id]? =
      if id.region = region then log.index[id.key]? else t.rows[id]?) (hnamed : after.Named) :
    Stands ⟨d, s.logs.insert region log⟩ after := by
  have hget (other : String) : (s.logs.insert region log)[other]? =
      if region = other then some log else s.logs[other]? := Tree.get_insert _ _ _ _
  refine ⟨hlogged.present, ?_, ?_, ?_, hnamed⟩
  · intro other otherLog hother
    rw [hget] at hother
    split at hother
    · rename_i heq
      cases hother
      subst heq
      exact ⟨hregion, hname, text, hlogged⟩
    · rename_i hne
      obtain ⟨hsome, hotherName, otherText, hotherLogged⟩ := h.log hother
      refine ⟨hsome, hotherName, otherText, logged_of_same hotherLogged hlogged.present ?_⟩
      rw [hotherName]
      exact hothers _ fun heq => hne (FileName.ofRegion_inj heq).symm
  · intro name hsome
    by_cases hown : name = FileName.ofRegion region
    · exact ⟨region, log, by rw [hget, if_pos rfl], hown⟩
    · rw [hothers name hown] at hsome
      obtain ⟨other, otherLog, hother, hotherName⟩ := h.file hsome
      have hne : region ≠ other := by
        rintro rfl
        exact hown hotherName
      exact ⟨other, otherLog, by rw [hget, if_neg hne, hother], hotherName⟩
  · intro id
    rw [hrows, LogStore.index]
    simp only [hget]
    by_cases heq : id.region = region
    · rw [if_pos heq, if_pos heq.symm]
    · rw [if_neg heq, if_neg (Ne.symm heq), h.rows, LogStore.index]

/-- A write to one log changes the rows of its region. -/
theorem Stands.update {region : String} {log : RegionLog} (hlog : s.logs[region]? = some log)
    {text : List Char} {index : ExtTreeMap String Entry} {out : RegionLog × Directory}
    (hwrote : RegionLog.Wrote s.directory log text index out) {after : Table}
    (hrows : ∀ id : RowId, after.rows[id]? =
      if id.region = region then index[id.key]? else t.rows[id]?) (hnamed : after.Named) :
    Stands (s.update region out) after := by
  obtain ⟨hregion, hname, -⟩ := h.log hlog
  obtain ⟨⟨newText, hlogged, -⟩, rfl, hsame, hothers⟩ := hwrote
  rw [hname] at hsame hothers
  exact h.insert hregion _ hsame hlogged (hothers (h.beside _)) hrows hnamed

theorem Stands.get {region : String} {log : RegionLog} (hlog : s.logs[region]? = some log)
    (key : String) : t.rows[RowId.mk region key]? = log.index[key]? := by
  rw [h.rows, index_of_log hlog]

/-- A region without a log has no rows. -/
theorem Stands.get_none {region : String} (hnone : s.logs[region]? = none) (key : String) :
    t.rows[RowId.mk region key]? = none := by
  rw [h.rows, index_of_none hnone]
  exact ExtTreeMap.getElem?_empty

/-- The log of a region is opened, empty if the region has none. -/
theorem Stands.logFor {region : String} (hregion : region ≠ "") :
    ∃ log s', s.logFor region = (.ok log, s') ∧ s'.logs[region]? = some log ∧ Stands s' t := by
  cases hlog : s.logs[region]? with
  | some log => exact ⟨log, s, by rw [LogStore.logFor, hlog], hlog, h⟩
  | none =>
    have hopen := RegionLog.openFile_none h.present (h.no_file hlog)
    refine ⟨_, _, by rw [LogStore.logFor, hlog, hopen], (Tree.get_insert _ _ _ _).trans (if_pos rfl),
      h.insert hregion [] rfl ?_ ?_ ?_ h.named⟩
    · refine ⟨rfl, (Tree.get_insert _ _ _ _).trans (if_pos rfl), Text.ended_nil, rfl, rfl, ?_⟩
      intro key e he
      simp at he
    · intro other hother
      exact (Tree.get_insert _ _ _ _).trans (if_neg hother.symm)
    · rintro ⟨other, key⟩
      split
      · rename_i heq
        cases heq
        exact (h.get_none hlog key).trans ExtTreeMap.getElem?_empty.symm
      · rfl

/-! ### Calls -/

theorem Stands.save {e : Entry} (hregion : e.region ≠ "") (he : e.Storable) :
    ∃ s', s.save e = (.ok (), s') ∧ Stands s' (t.save e) := by
  obtain ⟨log, s', hopen, hlog, hstands⟩ := h.logFor hregion
  obtain ⟨-, -, text, hlogged⟩ := hstands.log hlog
  refine ⟨_, by rw [LogStore.save, hopen], hstands.update hlog (RegionLog.wrote_put hlogged he)
    (fun id => ?_) (Table.named_save h.named e)⟩
  obtain ⟨region, key⟩ := id
  rw [Table.rows_save, Tree.get_insert]
  simp only [RowId.mk.injEq]
  by_cases hsame : e.region = region
  · subst hsame
    rw [← hstands.get hlog]
    simp
  · rw [if_neg (fun heq => hsame heq.1), if_neg (Ne.symm hsame)]

/-- A removal answers whether the row was there. -/
theorem Stands.remove {region : String} {log : RegionLog} (hlog : s.logs[region]? = some log)
    (key : String) :
    (log.remove s.directory key).1 = (t.get? region key).isSome ∧
      Stands (s.update region (log.remove s.directory key).2) (t.erase region key) := by
  obtain ⟨-, -, text, hlogged⟩ := h.log hlog
  refine ⟨?_, h.update hlog (RegionLog.wrote_remove hlogged key) (fun id => ?_)
    (Table.named_erase h.named region key)⟩
  · rw [Table.get?, h.get hlog, RegionLog.remove, ← ExtTreeMap.contains_eq_isSome_getElem?]
    split
    · rename_i hkey
      exact hkey.symm
    · rename_i hkey
      exact (Bool.not_eq_true _ ▸ hkey).symm
  · obtain ⟨other, otherKey⟩ := id
    rw [Table.rows_erase, Tree.get_erase]
    simp only [RowId.mk.injEq]
    by_cases hsame : region = other
    · subst hsame
      rw [← h.get hlog]
      simp
    · rw [if_neg (fun heq => hsame heq.1), if_neg (Ne.symm hsame)]

theorem Stands.erase_none {region : String} (hnone : s.logs[region]? = none) (key : String) :
    t.erase region key = t := by
  exact congrArg Table.mk (Tree.erase_of_none _ (h.get_none hnone key))

theorem Stands.erase (region key : String) : Stands (s.erase region key) (t.erase region key) := by
  rw [LogStore.erase]
  cases hlog : s.logs[region]? with
  | none =>
    rw [h.erase_none hlog]
    exact h
  | some log => exact (h.remove hlog key).2

theorem Stands.setExpiry {expiresAt : Option Nat} (hrange : ∀ n ∈ expiresAt, n ≤ Text.maxUnsigned)
    (region key : String) :
    Stands (s.setExpiry region key expiresAt) (t.setExpiry region key expiresAt) := by
  have hsame (hnone : t.rows[RowId.mk region key]? = none) :
      t.setExpiry region key expiresAt = t := by
    refine congrArg Table.mk (ExtTreeMap.ext_getElem? fun id => ?_)
    refine (Table.rows_setExpiry t region key expiresAt id).trans ?_
    split
    · rename_i heq
      rw [← heq, hnone]
      rfl
    · rfl
  rw [LogStore.setExpiry]
  cases hlog : s.logs[region]? with
  | none =>
    rw [hsame (h.get_none hlog key)]
    exact h
  | some log =>
    obtain ⟨-, -, text, hlogged⟩ := h.log hlog
    have hget := h.get hlog
    dsimp only
    cases hentry : log.index[key]? with
    | none =>
      rw [hsame ((hget key).trans hentry)]
      exact h
    | some e =>
      have hkey : e.key = key := hlogged.keyed key e hentry
      have hstorable := hlogged.storable key e hentry
      have he : ({ e with expiresAt } : Entry).Storable :=
        ⟨hstorable.value, hstorable.createdAt, hstorable.lastAccessedAt, hrange⟩
      refine h.update hlog (RegionLog.wrote_put hlogged he) (fun id => ?_)
        (Table.named_setExpiry h.named region key expiresAt)
      obtain ⟨other, otherKey⟩ := id
      rw [Table.rows_setExpiry, Tree.get_insert]
      simp only [RowId.mk.injEq, hkey]
      by_cases hregion : region = other
      · subst hregion
        by_cases hsameKey : key = otherKey
        · subst hsameKey
          simp [hget, hentry, hkey]
        · simp [hsameKey, hget]
      · rw [if_neg (fun heq => hregion heq.1), if_neg (Ne.symm hregion)]

theorem Stands.eraseRegion (region : String) :
    ∃ s', s.eraseRegion region = (.ok (), s') ∧ Stands s' (t.eraseRegion region) := by
  have hnamed := Table.named_eraseRegion h.named region
  rw [LogStore.eraseRegion]
  cases hlog : s.logs[region]? with
  | none =>
    refine ⟨s, rfl, h.present, h.log, h.file, fun id => ?_, hnamed⟩
    rw [Table.get_eraseRegion]
    split
    · rename_i hid
      rw [hid, index_of_none hlog, ExtTreeMap.getElem?_empty]
    · exact h.rows id
  | some log =>
    obtain ⟨hregion, hname, text, hlogged⟩ := h.log hlog
    have hcontains : s.directory.nodes.contains log.name = true := by
      rw [ExtTreeMap.contains_eq_isSome_getElem?, hlogged.file]
      rfl
    have hremove : s.directory.remove log.name =
        (.ok (), { s.directory with nodes := s.directory.nodes.erase log.name }) := by
      simp only [Directory.remove, hlogged.file]
    have hget (other : String) : (s.logs.erase region)[other]? =
        if region = other then none else s.logs[other]? := Tree.get_erase _ _ _
    refine ⟨⟨{ s.directory with nodes := s.directory.nodes.erase log.name }, s.logs.erase region⟩,
      by simp only [hcontains, if_true, hremove], h.present, ?_, ?_, ?_, hnamed⟩
    · intro other otherLog hother
      rw [hget] at hother
      split at hother
      · cases hother
      · rename_i hne
        obtain ⟨hsome, hotherName, otherText, hotherLogged⟩ := h.log hother
        refine ⟨hsome, hotherName, otherText, logged_of_same hotherLogged h.present ?_⟩
        refine (Tree.get_erase _ _ _).trans (if_neg ?_)
        rw [hname, hotherName]
        exact fun heq => hne (FileName.ofRegion_inj heq)
    · intro name hsome
      rw [Tree.get_erase] at hsome
      split at hsome
      · cases hsome
      · rename_i hne
        obtain ⟨other, otherLog, hother, hotherName⟩ := h.file hsome
        have hregionNe : region ≠ other := by
          rintro rfl
          exact hne (hname.trans hotherName.symm)
        exact ⟨other, otherLog, by rw [hget, if_neg hregionNe, hother], hotherName⟩
    · intro id
      rw [Table.get_eraseRegion, LogStore.index]
      simp only [hget]
      by_cases hid : id.region = region
      · rw [if_pos hid, if_pos hid.symm]
        exact ExtTreeMap.getElem?_empty.symm
      · rw [if_neg hid, if_neg (Ne.symm hid), h.rows, LogStore.index]

/-! ### Expired rows -/

theorem Stands.eraseKeys (region : String) (keys : List String) :
    ∃ t', Stands (s.eraseKeys region keys).2 t' ∧
      (s.eraseKeys region keys).1 + t'.rows.size = t.rows.size ∧
      ∀ id : RowId, t'.rows[id]? =
        if id.region = region ∧ id.key ∈ keys then none else t.rows[id]? := by
  induction keys generalizing s t with
  | nil => exact ⟨t, h, Nat.zero_add _, by simp⟩
  | cons key keys ih =>
    rw [LogStore.eraseKeys]
    cases hlog : s.logs[region]? with
    | none =>
      refine ⟨t, h, Nat.zero_add _, ?_⟩
      rintro ⟨other, otherKey⟩
      split
      · rename_i hin
        cases hin.1
        exact h.get_none hlog _
      · rfl
    | some log =>
      obtain ⟨hwas, hstands⟩ := h.remove hlog key
      obtain ⟨t', hlast, hsize, hrows⟩ := ih hstands
      refine ⟨t', hlast, ?_, ?_⟩
      · dsimp only
        rw [hwas, Nat.add_assoc, hsize, Table.size_erase]
      · rintro ⟨other, otherKey⟩
        rw [hrows, Table.rows_erase]
        simp only [RowId.mk.injEq, List.mem_cons]
        grind

theorem Stands.mem_expiredKeys (region : String) (now : Nat) (key : String) :
    key ∈ s.expiredKeys region now ↔
      ∃ e, t.rows[RowId.mk region key]? = some e ∧ e.isExpired now = true := by
  simp only [expiredKeys, List.mem_map, List.mem_filter, Prod.exists,
    ExtTreeMap.mem_toList_iff_getElem?_eq_some, h.rows]
  constructor
  · rintro ⟨k, e, ⟨he, hexpired⟩, rfl⟩
    obtain ⟨-, rfl⟩ := h.named ⟨region, k⟩ e ((h.rows _).trans he)
    exact ⟨e, he, hexpired⟩
  · rintro ⟨e, he, hexpired⟩
    exact ⟨key, e, ⟨he, hexpired⟩, (h.named ⟨region, key⟩ e ((h.rows _).trans he)).2⟩

/-- The expired rows of some regions are removed and counted. -/
theorem Stands.eraseExpired (now : Nat) (regions : List String) :
    ∃ t', Stands (s.eraseExpired now regions).2 t' ∧
      (s.eraseExpired now regions).1 + t'.rows.size = t.rows.size ∧
      ∀ id : RowId, t'.rows[id]? = if id.region ∈ regions then
        t.rows[id]?.filter (fun e => !e.isExpired now) else t.rows[id]? := by
  induction regions generalizing s t with
  | nil => exact ⟨t, h, Nat.zero_add _, by simp⟩
  | cons region regions ih =>
    obtain ⟨middle, hmiddle, hsize, hrows⟩ := h.eraseKeys region (s.expiredKeys region now)
    obtain ⟨t', hlast, hmore, hlater⟩ := ih hmiddle
    refine ⟨t', hlast, ?_, fun id => ?_⟩
    · rw [LogStore.eraseExpired, ← hsize, ← hmore, ← Nat.add_assoc]
    · have hfirst : middle.rows[id]? = if id.region = region then
          t.rows[id]?.filter (fun e => !e.isExpired now) else t.rows[id]? := by
        obtain ⟨other, key⟩ := id
        rw [hrows]
        simp only [h.mem_expiredKeys]
        by_cases hregion : other = region
        · subst hregion
          cases hrow : t.rows[RowId.mk other key]? with
          | none => simp
          | some e => cases hexpired : e.isExpired now <;> simp [hexpired, Option.filter]
        · simp [hregion]
      rw [hlater, hfirst]
      by_cases hregion : id.region = region
      · simp [hregion, Option.filter_filter]
      · simp [hregion]

theorem Stands.deleteExpired (now : Nat) :
    Stands (s.eraseExpired now s.logs.keys).2 (t.eraseExpired now) ∧
      (s.eraseExpired now s.logs.keys).1 = t.rows.size - (t.eraseExpired now).rows.size := by
  obtain ⟨t', hstands, hsize, hrows⟩ := h.eraseExpired now s.logs.keys
  have hsame : t' = t.eraseExpired now := by
    refine congrArg Table.mk (ExtTreeMap.ext_getElem? fun id => ?_)
    refine Eq.trans ?_ (Table.rows_eraseExpired t now id).symm
    rw [hrows]
    split
    · rfl
    · rename_i hout
      have hnone : s.logs[id.region]? = none := by
        rw [ExtTreeMap.mem_keys] at hout
        simpa using hout
      have hrow : t.rows[id]? = none := h.get_none hnone id.key
      rw [hrow]
      rfl
  subst hsame
  exact ⟨hstands, by omega⟩

/-! ### Lists -/

theorem Stands.mem_values (region : String) (e : Entry) :
    e ∈ (s.index region).values ↔ e.region = region ∧ t.rows[RowId.mk e.region e.key]? = some e := by
  simp only [Tree.values_eq, List.mem_map, Prod.exists, exists_eq_right,
    ExtTreeMap.mem_toList_iff_getElem?_eq_some]
  constructor
  · rintro ⟨key, he⟩
    have hrow : t.rows[RowId.mk region key]? = some e := (h.rows _).trans he
    obtain ⟨rfl, rfl⟩ := h.named _ e hrow
    exact ⟨rfl, hrow⟩
  · rintro ⟨rfl, hrow⟩
    exact ⟨e.key, (h.rows _).symm.trans hrow⟩

theorem Stands.nodup_values (region : String) : (s.index region).values.Nodup := by
  rw [Tree.values_eq]
  apply Tree.nodup_values _ Entry.key
  intro key e he
  exact (h.named ⟨region, key⟩ e ((h.rows _).trans he)).2

theorem Stands.mem_regionRows (region : String) (e : Entry) :
    e ∈ (t.regionRows region).map (·.2) ↔
      e.region = region ∧ t.rows[RowId.mk e.region e.key]? = some e := by
  simp only [Table.regionRows, List.mem_map, List.mem_filter, Prod.exists, exists_eq_right,
    ExtTreeMap.mem_toList_iff_getElem?_eq_some, decide_eq_true_eq]
  constructor
  · rintro ⟨⟨other, key⟩, he, rfl⟩
    obtain ⟨rfl, rfl⟩ := h.named _ e he
    exact ⟨rfl, he⟩
  · rintro ⟨rfl, he⟩
    exact ⟨_, he, rfl⟩

theorem Stands.loadRegion (region : String) :
    (s.index region).values.Perm ((t.regionRows region).map (·.2)) := by
  have hnodup : ((t.regionRows region).map (·.2)).Nodup :=
    (t.nodup_entries h.named).sublist (List.filter_sublist.map _)
  rw [List.perm_ext_iff_of_nodup (h.nodup_values region) hnodup]
  exact fun e => (h.mem_values region e).trans (h.mem_regionRows region e).symm

theorem Stands.loadAll : s.entries.Perm t.entries := by
  have hindex {row : String × RegionLog} (hrow : row ∈ s.logs.toList) :
      row.2.index = s.index row.1 :=
    (index_of_log (ExtTreeMap.mem_toList_iff_getElem?_eq_some.1 hrow)).symm
  have hnodup : (s.logs.toList.flatMap fun row => row.2.index.values).Nodup := by
    refine List.pairwise_flatMap.2
      ⟨fun row hrow => by rw [hindex hrow]; exact h.nodup_values row.1, ?_⟩
    refine s.logs.distinct_keys_toList.imp_of_mem ?_
    rintro row other hrow hother hne e he _ hsame rfl
    rw [hindex hrow, h.mem_values] at he
    rw [hindex hother, h.mem_values] at hsame
    rw [← he.1, ← hsame.1] at hne
    exact hne ReflCmp.compare_self
  refine (List.mergeSort_perm _ _).trans ?_
  rw [List.perm_ext_iff_of_nodup hnodup (t.nodup_entries h.named)]
  intro e
  rw [Table.mem_entries, List.mem_flatMap]
  constructor
  · rintro ⟨row, hrow, he⟩
    rw [hindex hrow, h.mem_values] at he
    exact ⟨_, he.2⟩
  · rintro ⟨⟨region, key⟩, he⟩
    obtain ⟨rfl, rfl⟩ := h.named _ e he
    cases hlog : s.logs[e.region]? with
    | none =>
      rw [h.get_none hlog] at he
      cases he
    | some log =>
      have hrow : (e.region, log) ∈ s.logs.toList :=
        ExtTreeMap.mem_toList_iff_getElem?_eq_some.2 hlog
      refine ⟨_, hrow, ?_⟩
      rw [hindex hrow, h.mem_values]
      exact ⟨rfl, he⟩

theorem Stands.count (region : String) : (s.index region).size = (t.regionRows region).length := by
  have hlength := (h.loadRegion region).length_eq
  rwa [Tree.values_eq, List.length_map, List.length_map, ExtTreeMap.length_toList] at hlength

theorem Stands.regions :
    ((s.logs.toList.filter fun row => !row.2.index.isEmpty).map (·.1)).Perm t.regionNames := by
  have hnodup : ((s.logs.toList.filter fun row => !row.2.index.isEmpty).map (·.1)).Nodup := by
    refine List.Nodup.sublist (List.filter_sublist.map _) ?_
    rw [ExtTreeMap.map_fst_toList_eq_keys]
    exact ExtTreeMap.nodup_keys
  have hnames : t.regionNames.Nodup := Tree.nodup_members _
  rw [List.perm_ext_iff_of_nodup hnodup hnames]
  intro region
  rw [Table.mem_regionNames]
  simp only [List.mem_map, List.mem_filter, Prod.exists, exists_and_right, exists_eq_right,
    ExtTreeMap.mem_toList_iff_getElem?_eq_some]
  constructor
  · rintro ⟨log, hlog, hsome⟩
    obtain ⟨key, hkey⟩ : ∃ key, key ∈ log.index := by
      by_contra hnone
      rw [not_exists] at hnone
      rw [ExtTreeMap.eq_empty_iff_forall_not_mem.2 hnone, ExtTreeMap.isEmpty_empty] at hsome
      cases hsome
    refine ⟨⟨region, key⟩, rfl, ?_⟩
    rwa [h.get hlog, ← ExtTreeMap.mem_iff_isSome_getElem?]
  · rintro ⟨⟨other, key⟩, rfl, hrow⟩
    cases hlog : s.logs[other]? with
    | none =>
      rw [h.get_none hlog] at hrow
      cases hrow
    | some log =>
      rw [h.get hlog, ← ExtTreeMap.mem_iff_isSome_getElem?] at hrow
      have hsome : log.index.isEmpty = false :=
        ExtTreeMap.isEmpty_eq_false_iff.2 (ExtTreeMap.ne_empty_of_mem hrow)
      exact ⟨log, rfl, by rw [hsome]; rfl⟩

end

end LogStore
end TierCache
