import TierCache.Proofs.Store.Reopening

/-!
Stores whose calls all succeed as long as they are asked for what they can hold. A table holds any
row; a picky store, like one of logs, holds those that have a region with a name and fit into JSON.
-/
namespace TierCache

/-- A store can hold the entry, even if it is picky. -/
def Entry.Fits (picky : Prop) (e : Entry) : Prop := picky → e.region ≠ "" ∧ e.Storable

/-- Every call succeeds, answers from the table that the store stands for, and leaves a store that
stands for the changed table. -/
structure Dependable {σ : Type} [Store σ] (picky : Prop) (stands : σ → Table → Prop) : Prop where
  fits {s : σ} {t : Table} (h : stands s t) {region key : String} {row : Entry}
    (hrow : t.get? region key = some row) : row.Fits picky
  save {s : σ} {t : Table} (h : stands s t) {entry : Entry} (hfits : entry.Fits picky) :
    ∃ s', Store.save entry s = (.ok (), s') ∧ stands s' (t.save entry)
  load {s : σ} {t : Table} (h : stands s t) (region key : String) :
    ∃ s', Store.load region key s = (.ok (t.get? region key), s') ∧ stands s' t
  loadAll {s : σ} {t : Table} (h : stands s t) :
    ∃ rows s', Store.loadAll s = (.ok rows, s') ∧ rows.Perm t.entries ∧ stands s' t
  delete {s : σ} {t : Table} (h : stands s t) (region key : String) :
    ∃ s', Store.delete region key s = (.ok (), s') ∧ stands s' (t.erase region key)
  deleteRegion {s : σ} {t : Table} (h : stands s t) (region : String) :
    ∃ s', Store.deleteRegion region s = (.ok (), s') ∧ stands s' (t.eraseRegion region)
  updateExpiry {s : σ} {t : Table} (h : stands s t) (region key : String) {expiresAt : Option Nat}
    (hrange : ∀ n ∈ expiresAt, n ≤ Text.maxUnsigned) :
    ∃ s', Store.updateExpiry region key expiresAt s = (.ok (), s') ∧
      stands s' (t.setExpiry region key expiresAt)
  deleteExpired {s : σ} {t : Table} (h : stands s t) (now : Nat) :
    ∃ n s', Store.deleteExpired now s = (.ok n, s') ∧ stands s' (t.eraseExpired now)
  count {s : σ} {t : Table} (h : stands s t) (region : String) :
    ∃ n s', Store.count region s = (.ok n, s') ∧ stands s' t
  regions {s : σ} {t : Table} (h : stands s t) :
    ∃ names s', Store.regions s = (.ok names, s') ∧ stands s' t

namespace Dependable

/-- A store that takes any row is dependable. -/
theorem of_reliable {σ : Type} [Store σ] {stands : σ → Table → Prop} (reliable : Reliable stands) :
    Dependable False stands where
  fits _ _ _ _ _ := False.elim
  save h entry _ := reliable.save h entry
  load := reliable.load
  loadAll := reliable.loadAll
  delete := reliable.delete
  deleteRegion := reliable.deleteRegion
  updateExpiry h region key expiresAt _ := reliable.updateExpiry h region key expiresAt
  deleteExpired h now := ⟨_, reliable.deleteExpired h now⟩
  count h region := ⟨_, reliable.count h region⟩
  regions h := by
    obtain ⟨names, s, hregions, -, hs⟩ := reliable.regions h
    exact ⟨names, s, hregions, hs⟩

/-- A store of logs is dependable. -/
theorem logs : Dependable True LogStore.Stands where
  fits {s t} h {region key row} hrow _ := by
    obtain ⟨hregion, -⟩ := h.named _ row hrow
    cases hlog : s.logs[region]? with
    | none => cases (h.get_none hlog key).symm.trans hrow
    | some log =>
      obtain ⟨hname, -, text, hlogged⟩ := h.log hlog
      have hindex : log.index[key]? = some row := (h.get hlog key).symm.trans hrow
      exact ⟨hregion ▸ hname, hlogged.storable key row hindex⟩
  save h _ hfits := h.save (hfits trivial).1 (hfits trivial).2
  load {s t} h region key := by
    have hrow : (s.index region)[key]? = t.get? region key := (h.rows ⟨region, key⟩).symm
    exact ⟨s, by rw [← hrow]; rfl, h⟩
  loadAll {s t} h := ⟨s.entries, s, rfl, h.loadAll, h⟩
  delete h region key := ⟨_, rfl, h.erase region key⟩
  deleteRegion h region := h.eraseRegion region
  updateExpiry h region key _ hrange := ⟨_, rfl, h.setExpiry hrange region key⟩
  deleteExpired h now := ⟨_, _, rfl, (h.deleteExpired now).1⟩
  count {s t} h region := ⟨_, s, rfl, h⟩
  regions {s t} h := ⟨_, s, rfl, h⟩

end Dependable
end TierCache
