import TierCache.Proofs.Outage.Reading

/-!
Writing while the store may fail. A write either puts its row in place or leaves all rows as they were
and says so; that it is refused shows in the reply alone.
-/
namespace TierCache
open Std

/-- A row that is saved becomes known and, with a slot, resident. -/
theorem Engine.saveRow_of_ok {σ : Type} [Store σ] {e : Engine σ} {row : Entry} {s : σ}
    (h : Store.save row e.store = (.ok (), s)) (claimed : Bool) :
    let e' := { e with store := s }.know row.region row.key
    let put := e'.install row.region { row with resident := true } claimed
    e.saveRow row true claimed = (.ok { row with resident := put.1 }, put.2) ∧
      e.saveRow row false claimed = (.ok row, e') := by
  simp only [saveRow, h]
  exact ⟨rfl, rfl⟩

theorem Engine.cell_save {σ : Type} (e : Engine σ) (t : Table) (entry : Entry)
    (region key : String) : e.cell (t.save entry) region key =
      if entry.region = region ∧ entry.key = key then
        { e.cell t region key with stored := some entry }
      else e.cell t region key := by
  rw [cell, t.get?_save]
  simp only [RowId.mk.injEq]
  split <;> rfl

section Saved
variable {σ : Type} {e e' : Engine σ} {row : Entry}

/-- How the regions change with a row that is saved: its key is known, and memory has the row, or had
nothing of the key and still has not. -/
def Engine.Saved (e e' : Engine σ) (row : Entry) : Prop :=
  (e.regionD row.region).memory[row.key]? = none ∧
      e'.regions = (e.know row.region row.key).regions ∨
    ∃ place, e'.regions = ((e.know row.region row.key).hold row.region row.key
      { row with resident := place }).regions

theorem Engine.Saved.cell (h : e.Saved e' row) (t : Table) (region key : String) :
    ∃ copy, (copy = none ∨ copy = some row.row) ∧
      e'.cell (t.save row) region key = if row.region = region ∧ row.key = key then
        ⟨true, copy, some row⟩ else e.cell t region key := by
  obtain ⟨hout, hregions⟩ | ⟨place, hregions⟩ := h
  · refine ⟨none, .inl rfl, ?_⟩
    rw [cell_save, cell_congr (regionD_of_regions hregions region), cell_know]
    split
    · rename_i hname
      obtain ⟨rfl, rfl⟩ := hname
      simp only [Engine.cell, hout, Option.map_none]
    · rfl
  · refine ⟨some row.row, .inr rfl, ?_⟩
    rw [cell_save, cell_congr (regionD_of_regions hregions region), cell_hold, cell_know]
    split <;> rfl

/-- What memory has afterwards is the row, or of another key. -/
theorem Engine.Saved.memory (h : e.Saved e' row) {region key : String} {entry : Entry}
    (hm : (e'.regionD region).memory[key]? = some entry) :
    (row.region = region ∧ row.key = key ∧ ∃ place, entry = { row with resident := place }) ∨
      ¬(row.region = region ∧ row.key = key) ∧ (e.regionD region).memory[key]? = some entry := by
  obtain ⟨hout, hregions⟩ | ⟨place, hregions⟩ := h
  · rw [regionD_of_regions hregions, memory_know] at hm
    refine .inr ⟨?_, hm⟩
    rintro ⟨rfl, rfl⟩
    cases hout.symm.trans hm
  · rw [regionD_of_regions hregions, memory_hold, memory_know] at hm
    split at hm
    · rename_i hname
      cases hm
      exact .inl ⟨hname.1, hname.2, place, rfl⟩
    · rename_i hne
      exact .inr ⟨hne, hm⟩

/-- A row without a slot must not be in memory already, or memory would keep an older one. -/
theorem Engine.saveRow_saved [Store σ] {s : σ} (h : Store.save row e.store = (.ok (), s))
    (hasSlot claimed : Bool)
    (hout : hasSlot = false → (e.regionD row.region).memory[row.key]? = none) :
    ∃ place e', e.saveRow row hasSlot claimed = (.ok { row with resident := place }, e') ∧
      e.Saved e' row ∧ e'.store = s ∧ e'.signals = e.signals := by
  cases hasSlot with
  | false => exact ⟨row.resident, _, Engine.saveRow_of_ok h claimed |>.2, .inl ⟨hout rfl, rfl⟩, rfl, rfl⟩
  | true =>
    refine ⟨_, _, Engine.saveRow_of_ok h claimed |>.1, ?_, ?_, ?_⟩
    · obtain hheld | ⟨hnone, hkept⟩ :=
        ({ e with store := s }.know row.region row.key).regions_install row.region
          { row with resident := true } claimed
      · exact .inr ⟨true, hheld⟩
      · rw [Engine.memory_know] at hnone
        exact .inl ⟨ExtTreeMap.getElem?_eq_none_of_contains_eq_false hnone, hkept⟩
    · rw [Engine.store_install]
      rfl
    · rw [Engine.signals_install]
      rfl

end Saved

section Expiry
variable {σ : Type} (e : Engine σ) (region key : String) (expiresAt : Option Nat)

theorem Engine.setResidentExpiry_cases :
    (∃ entry, (e.regionD region).memory[key]? = some entry ∧
      e.setResidentExpiry region key expiresAt = e.setRegion region { e.regionD region with
        memory := (e.regionD region).memory.insert key { entry with expiresAt } }) ∨
    (e.regionD region).memory[key]? = none ∧ e.setResidentExpiry region key expiresAt = e := by
  unfold setResidentExpiry
  dsimp only
  split
  · rename_i entry hm
    exact .inl ⟨entry, hm, rfl⟩
  · rename_i hm
    exact .inr ⟨hm, rfl⟩

@[simp] theorem Engine.store_setResidentExpiry :
    (e.setResidentExpiry region key expiresAt).store = e.store := by
  obtain ⟨entry, -, heq⟩ | ⟨-, heq⟩ := e.setResidentExpiry_cases region key expiresAt
  · rw [heq]
    rfl
  · rw [heq]

theorem Engine.signals_setResidentExpiry :
    (e.setResidentExpiry region key expiresAt).signals = e.signals := by
  obtain ⟨entry, -, heq⟩ | ⟨-, heq⟩ := e.setResidentExpiry_cases region key expiresAt
  · rw [heq]
    rfl
  · rw [heq]

theorem Engine.known_setResidentExpiry (other : String) :
    ((e.setResidentExpiry region key expiresAt).regionD other).known = (e.regionD other).known := by
  obtain ⟨entry, -, heq⟩ | ⟨-, heq⟩ := e.setResidentExpiry_cases region key expiresAt
  · rw [heq, regionD_setRegion]
    split
    · rename_i hregion
      rw [hregion]
    · rfl
  · rw [heq]

theorem Engine.memory_setResidentExpiry (other name : String) :
    ((e.setResidentExpiry region key expiresAt).regionD other).memory[name]? =
      if region = other ∧ key = name then
        (e.regionD other).memory[name]?.map ({ · with expiresAt })
      else (e.regionD other).memory[name]? := by
  obtain ⟨entry, hm, heq⟩ | ⟨hm, heq⟩ := e.setResidentExpiry_cases region key expiresAt
  · rw [heq, regionD_setRegion]
    by_cases hregion : region = other
    · subst hregion
      rw [if_pos rfl, Tree.get_insert]
      split
      · rename_i hkey
        rw [if_pos ⟨rfl, hkey⟩, ← hkey, hm]
        rfl
      · rename_i hkey
        rw [if_neg fun hname => hkey hname.2]
    · rw [if_neg hregion, if_neg fun hname => hregion hname.1]
  · rw [heq]
    split
    · rename_i hname
      rw [← hname.1, ← hname.2, hm]
      rfl
    · rfl

theorem Engine.cell_setExpiry (t : Table) (other name : String) :
    (e.setResidentExpiry region key expiresAt).cell (t.setExpiry region key expiresAt) other name =
      if region = other ∧ key = name then (e.cell t other name).retimed expiresAt
      else e.cell t other name := by
  rw [cell, known_setResidentExpiry, memory_setResidentExpiry, t.get?_setExpiry]
  simp only [RowId.mk.injEq]
  split
  · rw [Option.map_map]
    simp only [cell, Cell.retimed, Option.map_map]
    rfl
  · rfl

end Expiry

/-- An engine wrote an entry to its key, and may have moved others between the tiers. -/
structure Wrote {σ : Type} (stands : σ → Table → Prop) (now : Nat) (told : List Signal)
    (e : Engine (Faulty σ)) (t : Table) (e' : Engine (Faulty σ)) (entry : Entry) : Prop where
  backed : Backed stands e' (t.save entry)
  later : e.store.Later e'.store
  signals : e'.signals = e.signals ++ told
  written : (e'.cell (t.save entry) entry.region entry.key).Written entry
  others {region key : String} (h : ¬(entry.region = region ∧ entry.key = key)) :
    Cell.Path now Cell.Kind.Quiet (e.cell t region key) (e'.cell (t.save entry) region key)

namespace Wrote

variable {σ : Type} {stands : σ → Table → Prop} {now : Nat} {told : List Signal}
  {e e₁ e' : Engine (Faulty σ)} {t : Table} {entry : Entry}

theorem after (h : Wrote stands now told e₁ t e' entry) (hmoves : Moves stands now .quiet [] e t e₁ t) :
    Wrote stands now told e t e' entry := by
  refine ⟨h.backed, hmoves.later.trans h.later, ?_, h.written, ?_⟩
  · rw [h.signals, hmoves.signals, List.append_nil]
  · exact fun hne => (hmoves.path _ _).trans (h.others hne)

theorem announce (h : Wrote stands now [] e t e' entry) (m : Mutation) (region key : String)
    (kind : ChangeKind) : Wrote stands now [.mutation m, .change region key kind] e t
      (e'.announce m region key kind) entry := by
  refine ⟨h.backed.of_eq rfl rfl, h.later, ?_, h.written, h.others⟩
  rw [Engine.signals_announce, h.signals, List.append_nil]

/-- A write is one step for its key. -/
theorem moves (h : Wrote stands now told e t e' entry) {kind : Cell.Kind} {kinds : List Cell.Kind}
    (hkind : (e.cell t entry.region entry.key).Writable now kind) (hkinds : kind ∈ kinds) :
    Moves stands now (.only entry.region entry.key kinds) told e t e' (t.save entry) := by
  refine ⟨h.backed, h.later, h.signals, ?_⟩
  intro region key
  by_cases hname : entry.region = region ∧ entry.key = key
  · obtain ⟨rfl, rfl⟩ := hname
    exact .one (.inr ⟨⟨rfl, rfl⟩, hkinds⟩) (hkind.step h.written)
  · exact (h.others hname).mono fun _ => .inl

/-- What is told of a write is so, whatever place it tells. -/
theorem done (entry : Entry) {place : Bool}
    (h : Wrote stands now [.mutation (.set { entry with resident := place }),
      .change entry.region entry.key .set] e t e' { entry with resident := false })
    {kind : Cell.Kind} {kinds : List Cell.Kind}
    (hkind : (e.cell t entry.region entry.key).Writable now kind) (hkinds : kind ∈ kinds) :
    Done stands now (.only entry.region entry.key kinds)
      [.mutation (.set { entry with resident := place }), .change entry.region entry.key .set]
      e t e' (t.save { entry with resident := false }) := by
  have hheld := Cell.held_of_stored h.written.copy h.written.stored
  exact .of_announced (h.moves hkind hkinds) fun _ => hheld

end Wrote

namespace Backed

variable {σ : Type} {stands : σ → Table → Prop} {e : Engine (Faulty σ)} {t : Table}

/-- A row was saved: its key is known, and in memory there is nothing older of the key. -/
theorem saved (h : Backed stands e t) (now : Nat) {row : Entry} (hplace : row.resident = false)
    {e' : Engine (Faulty σ)} (stored : stands e'.store.inner (t.save row))
    (later : e.store.Later e'.store) (signals : e'.signals = e.signals) (hsaved : e.Saved e' row) :
    Wrote stands now [] e t e' row := by
  refine ⟨⟨stored, t.named_save h.named row, ?_, ?_⟩, later, by rw [signals, List.append_nil], ?_, ?_⟩
  · intro region key hknown
    obtain ⟨copy, -, hcell⟩ := hsaved.cell t region key
    have hsame := congrArg Cell.known hcell
    rw [t.get?_save]
    split
    · rfl
    · rename_i hne
      rw [if_neg fun hname => hne (by rw [hname.1, hname.2])] at hsame
      exact h.known (hsame.symm.trans hknown)
  · intro region key entry hm
    obtain ⟨rfl, rfl, place, rfl⟩ | ⟨hne, hold⟩ := hsaved.memory hm
    · refine ⟨rfl, rfl, ?_⟩
      intro found hfound
      rw [t.get?_save, if_pos rfl] at hfound
      cases hfound
      rfl
    · apply (h.copied hold).of_subset
      intro found hfound
      rw [t.get?_save, if_neg fun heq => hne (RowId.mk.inj heq)] at hfound
      exact hfound
  · obtain ⟨copy, hcopy, hcell⟩ := hsaved.cell t row.region row.key
    rw [hcell, if_pos ⟨rfl, rfl⟩]
    exact ⟨rfl, rfl, hplace, hcopy⟩
  · intro region key hne
    obtain ⟨copy, -, hcell⟩ := hsaved.cell t region key
    rw [hcell, if_neg hne]
    exact .refl _

/-- A live key gets another moment of expiry in both tiers. -/
theorem retimed (h : Backed stands e t) {now : Nat} {region key : String}
    (live : (e.cell t region key).Live now) {expiresAt : Option Nat} {s : Faulty σ}
    (hs : stands s.inner (t.setExpiry region key expiresAt)) (later : e.store.Later s) :
    Moves stands now (.only region key [.retime]) [] e t
      ({ e with store := s }.setResidentExpiry region key expiresAt)
      (t.setExpiry region key expiresAt) := by
  have hknown := ({ e with store := s } : Engine (Faulty σ)).known_setResidentExpiry region key expiresAt
  have hmemory :=
    ({ e with store := s } : Engine (Faulty σ)).memory_setResidentExpiry region key expiresAt
  refine ⟨⟨?_, t.named_setExpiry h.named region key expiresAt, ?_, ?_⟩, ?_, ?_, ?_⟩
  · rwa [Engine.store_setResidentExpiry]
  · intro other name hin
    rw [hknown] at hin
    have hrow := h.known hin
    rw [t.get?_setExpiry]
    split
    · rwa [Option.isSome_map]
    · exact hrow
  · intro other name entry hm
    rw [hmemory] at hm
    split at hm
    · rename_i hname
      obtain ⟨rfl, rfl⟩ := hname
      obtain ⟨old, hold, rfl⟩ := Option.map_eq_some_iff.mp hm
      have hagrees := h.copied hold
      refine ⟨hagrees.ofRegion, hagrees.ofKey, ?_⟩
      intro row hrow
      rw [t.get?_setExpiry, if_pos rfl] at hrow
      obtain ⟨before, hbefore, rfl⟩ := Option.map_eq_some_iff.mp hrow
      exact congrArg (fun r : Row => { r with expiresAt }) (hagrees.ofRow hbefore)
    · rename_i hne
      apply (h.copied hm).of_subset
      intro row hrow
      rwa [t.get?_setExpiry, if_neg fun heq => hne (RowId.mk.inj heq)] at hrow
  · rwa [Engine.store_setResidentExpiry]
  · rw [Engine.signals_setResidentExpiry, List.append_nil]
  · intro other name
    rw [Engine.cell_setExpiry]
    split
    · rename_i hname
      obtain ⟨rfl, rfl⟩ := hname
      exact .one (.inr ⟨⟨rfl, rfl⟩, .head _⟩) (.retime live expiresAt)
    · exact .refl _

section
variable [Store σ] (reliable : Reliable stands)
include reliable

theorem creationTime (h : Backed stands e t) (now : Nat) (region key : String) :
    ∃ created s, e.creationTime region key = (created, { e with store := s }) ∧
      Moves stands now .quiet [] e t { e with store := s } t := by
  unfold Engine.creationTime
  dsimp only
  split
  · split
    · exact ⟨_, e.store, rfl, .refl h⟩
    · obtain ⟨s, later, ⟨hload, hs⟩ | ⟨⟨err, hload⟩, hs, -⟩⟩ :=
        Faulty.load reliable h.stored region key
      · exact ⟨_, s, by rw [hload], .asked (h.withStore hs) later⟩
      · exact ⟨none, s, by rw [hload], .asked (h.withStore hs) later⟩
  · exact ⟨none, e.store, rfl, .refl h⟩

theorem saveRow (h : Backed stands e t) (now : Nat) (row : Entry) (hplace : row.resident = false)
    (hasSlot claimed : Bool)
    (hout : hasSlot = false → (e.regionD row.region).memory[row.key]? = none) :
    ∃ reply e', e.saveRow row hasSlot claimed = (reply, e') ∧
      ((∃ place, reply = .ok { row with resident := place } ∧ Wrote stands now [] e t e' row) ∨
        (∃ err, reply = .error err) ∧ ¬e.store.Answered e'.store .save ∧
          Moves stands now .quiet [] e t e' t) := by
  obtain ⟨s, later, ⟨hsave, hs⟩ | ⟨⟨err, hsave⟩, hs, hfailed⟩⟩ := Faulty.save reliable h.stored row
  · obtain ⟨place, e', hrow, hsaved, rfl, hsignals⟩ := Engine.saveRow_saved hsave hasSlot claimed hout
    exact ⟨_, e', hrow, .inl ⟨place, rfl, h.saved now hplace hs later hsignals hsaved⟩⟩
  · simp only [Engine.saveRow, hsave]
    refine ⟨_, _, rfl, .inr ⟨⟨err, rfl⟩, ?_⟩⟩
    split
    · exact ⟨hfailed, .of_regions ((h.withStore hs).of_eq rfl rfl) later rfl rfl⟩
    · exact ⟨hfailed, .asked (h.withStore hs) later⟩

/-- A write puts the entry's row in place, maybe with an earlier time of creation, or no row. -/
theorem writeThrough (h : Backed stands e t) (now : Nat) (entry : Entry) :
    ∃ reply e', e.writeThrough entry = (reply, e') ∧
      ((∃ createdAt place, reply = .ok { entry with createdAt, resident := place } ∧
          Wrote stands now [] e t e' { entry with createdAt, resident := false }) ∨
        (∃ err, reply = .error err) ∧ ¬e.store.Answered e'.store .save ∧
          Moves stands now .quiet [] e t e' t) := by
  obtain ⟨created, s, hcreated, hasked⟩ := h.creationTime reliable now entry.region entry.key
  simp only [Engine.writeThrough, hcreated]
  cases hwas : ({ e with store := s } : Engine (Faulty σ)).isResident entry.region entry.key with
  | true =>
    obtain ⟨reply, e', hsave, hend⟩ := hasked.backed.saveRow reliable now
      { entry with createdAt := created.getD entry.createdAt, resident := false } rfl true false nofun
    simp only [if_true, Bool.not_true, Bool.and_false]
    refine ⟨reply, e', hsave, ?_⟩
    obtain ⟨place, hreply, hwrote⟩ | ⟨herr, hfailed, hmoves⟩ := hend
    · exact .inl ⟨_, place, hreply, hwrote.after hasked⟩
    · exact .inr ⟨herr, (hfailed <| ·.rest hasked.later), hasked.trans hmoves⟩
  | false =>
    have hroom := hasked.trans (.reserve hasked.backed)
    have hshrinks := ({ e with store := s } : Engine (Faulty σ)).shrinks_reserve
    cases hreserve : ({ e with store := s } : Engine (Faulty σ)).reserve with
    | mk granted e₂ =>
      rw [hreserve] at hroom hshrinks
      have hslot : granted = false → (e₂.regionD entry.region).memory[entry.key]? = none := by
        intro _
        cases hres : (e₂.regionD entry.region).memory[entry.key]? with
        | none => rfl
        | some copy =>
          have hold := hshrinks _ _ _ hres
          rw [ExtTreeMap.getElem?_eq_none_of_contains_eq_false hwas] at hold
          cases hold
      obtain ⟨reply, e', hsave, hend⟩ := hroom.backed.saveRow reliable now
        { entry with createdAt := created.getD entry.createdAt, resident := false } rfl granted
        granted hslot
      simp only [Bool.false_eq_true, if_false, Bool.not_false, Bool.and_true]
      refine ⟨reply, e', hsave, ?_⟩
      obtain ⟨place, hreply, hwrote⟩ | ⟨herr, hfailed, hmoves⟩ := hend
      · exact .inl ⟨_, place, hreply, hwrote.after hroom⟩
      · exact .inr ⟨herr, (hfailed <| ·.rest hroom.later), hroom.trans hmoves⟩

/-- A write that is carried out leaves a row with the entry's value and tells of it, one that is refused
had a save that failed, leaves all rows as they were and tells nothing. -/
theorem put (h : Backed stands e t) (now : Nat) (entry : Entry) :
    ∃ reply e', e.put entry = (reply, e') ∧
      ((∃ createdAt place, reply = .ok () ∧
          Wrote stands now [.mutation (.set { entry with createdAt, resident := place }),
              .change entry.region entry.key .set]
            e t e' { entry with createdAt, resident := false }) ∨
        (∃ err, reply = .error err) ∧ ¬e.store.Answered e'.store .save ∧
          Moves stands now .quiet [] e t e' t) := by
  have hensured : Moves stands now .quiet [] e t (e.ensureRegion entry.region) t :=
    .ensureRegion h entry.region
  obtain ⟨reply, e', hwrite, hend⟩ := hensured.backed.writeThrough reliable now entry
  obtain ⟨createdAt, place, rfl, hwrote⟩ | ⟨⟨err, rfl⟩, hfailed, hmoves⟩ := hend
  · refine ⟨_, _, ?_, .inl ⟨createdAt, place, rfl, (hwrote.after hensured).announce _ _ _ _⟩⟩
    simp only [Engine.put, hwrite]
  · refine ⟨.error err, e', ?_,
      .inr ⟨⟨err, rfl⟩, (hfailed <| ·.rest hensured.later), hensured.trans hmoves⟩⟩
    simp only [Engine.put, hwrite]

theorem setValue (h : Backed stands e t) (now : Nat) (region key : String) (value : Value)
    (expiresAt : Option Nat) : Settles stands now (.only region key [.create]) e t
      (e.setValue now region key value expiresAt) := by
  rw [Engine.setValue]
  obtain ⟨reply, e', hput, ⟨createdAt, place, rfl, hwrote⟩ | ⟨⟨err, rfl⟩, -, hmoves⟩⟩ :=
    h.put reliable now (.create now region key value expiresAt)
  · rw [hput]
    exact ⟨_, _, hwrote.done { Entry.create now region key value expiresAt with createdAt }
      (.inl rfl) (.head _)⟩
  · rw [hput]
    exact hmoves

/-! ### Expiry -/

/-- A visible key gets another moment of expiry, which may be told, or stays as it was. -/
theorem updateExpiry (h : Backed stands e t) {now : Nat} {region key : String} {row : Row}
    (hseen : (e.cell t region key).visible? now = some row) (expiresAt : Option Nat) {m : Mutation}
    (hm : ∀ cells, (cells region key).held = some { row with expiresAt } →
      (Signal.mutation m).Holds now cells) (kind : ChangeKind) :
    ∃ reply s, Store.updateExpiry region key expiresAt e.store = (reply, s) ∧
      (reply = .ok () ∧ Done stands now (.only region key [.retime])
          [.mutation m, .change region key kind] e t
          (({ e with store := s }.setResidentExpiry region key expiresAt).announce m region key kind)
          (t.setExpiry region key expiresAt) ∨
        (∃ err, reply = .error err) ∧
          Moves stands now .quiet [] e t { e with store := s } t) := by
  obtain ⟨s, later, ⟨hupdate, hs⟩ | ⟨⟨err, hupdate⟩, hs, -⟩⟩ :=
    Faulty.updateExpiry reliable h.stored region key expiresAt
  · have hmoves := h.retimed ⟨row, hseen⟩ hs later
    refine ⟨_, s, hupdate, .inl ⟨rfl, .of_announced (hmoves.announce m region key kind) ?_⟩⟩
    intro _
    apply hm
    have hcell := ({ e with store := s } : Engine (Faulty σ)).cell_setExpiry region key expiresAt
      t region key
    rw [if_pos ⟨rfl, rfl⟩] at hcell
    have hheld := (Option.filter_eq_some_iff.mp hseen).1
    refine (congrArg Cell.held hcell).trans ?_
    rw [Cell.held_retimed]
    exact congrArg (Option.map ({ · with expiresAt })) hheld
  · exact ⟨_, s, hupdate, .inr ⟨⟨err, rfl⟩, .asked (h.withStore hs) later⟩⟩

theorem persist (h : Backed stands e t) (now : Nat) (region key : String) :
    Settles stands now (.only region key [.retime]) e t (e.persist now region key) := by
  have hquiet := Reach.quiet_onto (fun other name => region = other ∧ key = name) [.retime]
  unfold Engine.persist
  split
  · exact .idle (.refl h) false hquiet
  · obtain ⟨found, s, hpeek, hmoves, hshown, hfinds⟩ := h.peek reliable now region key
    rw [hpeek]
    cases found with
    | none => exact .idle hmoves false hquiet
    | some entry =>
      have hagrees := (hshown.live rfl).2
      have hset (cells : String → String → Cell)
          (hheld : (cells region key).held = some { entry.row with expiresAt := none }) :
          Signal.Holds now cells (.mutation (.set { entry with expiresAt := none })) := by
        rw [Signal.Holds, hagrees.ofRegion, hagrees.ofKey]
        exact hheld
      obtain ⟨reply, s', hupdate, ⟨rfl, hdone⟩ | ⟨⟨err, rfl⟩, hmoves'⟩⟩ :=
        hmoves.backed.updateExpiry reliable (hfinds entry rfl) none hset .persist
      · simp only [hupdate]
        exact ⟨_, _, hdone.after (hmoves.mono hquiet)⟩
      · simp only [hupdate]
        exact hmoves.trans hmoves'

end
end Backed
end TierCache
