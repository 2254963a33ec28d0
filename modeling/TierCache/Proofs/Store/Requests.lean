import Mathlib.Data.Multiset.Defs
import TierCache.Proofs.Store.Reopening
import TierCache.Store.Backend

/-!
Either backend gives the same answers: logs in a directory, opened anew at any time, and a table in
memory.
-/
namespace TierCache

/-- A call to a store, or a restart of it. -/
inductive Request
  | save (entry : Entry)
  | load (region key : String)
  | loadAll
  | loadRegion (region : String)
  | delete (region key : String)
  | deleteRegion (region : String)
  | updateExpiry (region key : String) (expiresAt : Option Nat)
  | deleteExpired (now : Nat)
  | count (region : String)
  | regions
  | reopen

/-- What a call answers. The order of a list tells nothing. -/
inductive Answer
  | done
  | entry (e : Option Entry)
  | entries (es : Multiset Entry)
  | number (n : Nat)
  | names (regions : Multiset String)

namespace Request

/-- The entry that is saved has a region with a name and is one that JSON can hold, and an expiry is
an unsigned integer of 64 bits. -/
def Fits : Request → Prop
  | save e => e.region ≠ "" ∧ e.Storable
  | updateExpiry _ _ expiresAt => ∀ t ∈ expiresAt, t ≤ Text.maxUnsigned
  | _ => True

/-- One request to a store. A restart forgets what is in memory and makes the store ready again. -/
def perform (b : Backend) : Request → Except CacheError Answer × Backend
  | save e => (Store.save e b).map (·.map fun _ => .done) id
  | load region key => (Store.load region key b).map (·.map .entry) id
  | loadAll => (Store.loadAll b).map (·.map fun es => .entries es) id
  | loadRegion region => (Store.loadRegion region b).map (·.map fun es => .entries es) id
  | delete region key => (Store.delete region key b).map (·.map fun _ => .done) id
  | deleteRegion region => (Store.deleteRegion region b).map (·.map fun _ => .done) id
  | updateExpiry region key expiresAt =>
    (Store.updateExpiry region key expiresAt b).map (·.map fun _ => .done) id
  | deleteExpired now => (Store.deleteExpired now b).map (·.map .number) id
  | count region => (Store.count region b).map (·.map .number) id
  | regions => (Store.regions b).map (·.map fun names => .names names) id
  | reopen => (Store.init b.restart).map (·.map fun _ => .done) id

/-- The answers to a run of requests. -/
def answers (b : Backend) : List Request → List (Except CacheError Answer)
  | [] => []
  | r :: rest => (r.perform b).1 :: answers (r.perform b).2 rest

/-- A restart opens the directory anew. -/
theorem perform_reopen {s s' : LogStore} (h : (LogStore.ofDirectory s.directory).load = (.ok (), s')) :
    perform (.file s) .reopen = (.ok .done, .file s') := by
  have hrestart : (Backend.file s).restart = .file (.ofDirectory s.directory) := rfl
  simp [perform, hrestart, Store.init, Backend.run, h, Except.map]

/-- Logs and a table that stand for each other give the same answer and keep doing so. -/
theorem perform_eq {s : LogStore} {t : Table} (h : s.Stands t) {r : Request} (hr : r.Fits) :
    ∃ s' t', r.perform (.file s) = ((r.perform (.memory t)).1, .file s') ∧
      (r.perform (.memory t)).2 = .memory t' ∧ s'.Stands t' := by
  cases r with
  | save e =>
    obtain ⟨s', hsave, hstands⟩ := h.save hr.1 hr.2
    exact ⟨s', _, by simp [perform, Store.save, Backend.run, hsave], rfl, hstands⟩
  | load region key =>
    have hrow : (s.index region)[key]? = t.get? region key := (h.rows ⟨region, key⟩).symm
    exact ⟨s, t, by simp [perform, Store.load, Backend.run, hrow], rfl, h⟩
  | loadAll =>
    have hsame := Multiset.coe_eq_coe.2 h.loadAll
    exact ⟨s, t, by simp [perform, Store.loadAll, Backend.run, Except.map, hsame], rfl, h⟩
  | loadRegion region =>
    have hsame := Multiset.coe_eq_coe.2 (h.loadRegion region)
    exact ⟨s, t, by simp [perform, Store.loadRegion, Backend.run, Except.map, hsame], rfl, h⟩
  | delete region key => exact ⟨_, _, rfl, rfl, h.erase region key⟩
  | deleteRegion region =>
    obtain ⟨s', herase, hstands⟩ := h.eraseRegion region
    exact ⟨s', _, by simp [perform, Store.deleteRegion, Backend.run, herase], rfl, hstands⟩
  | updateExpiry region key expiresAt => exact ⟨_, _, rfl, rfl, h.setExpiry hr region key⟩
  | deleteExpired now =>
    obtain ⟨hstands, hcount⟩ := h.deleteExpired now
    exact ⟨_, _, by simp [perform, Store.deleteExpired, Backend.run, hcount], rfl, hstands⟩
  | count region =>
    have hsame := h.count region
    exact ⟨s, t, by simp [perform, Store.count, Backend.run, hsame], rfl, h⟩
  | regions =>
    have hsame := Multiset.coe_eq_coe.2 h.regions
    exact ⟨s, t, by simp [perform, Store.regions, Backend.run, Except.map, hsame], rfl, h⟩
  | reopen =>
    obtain ⟨s', hopen, hstands⟩ := h.reopen
    exact ⟨s', t, perform_reopen hopen, rfl, hstands⟩

theorem answers_eq_of_stands {s : LogStore} {t : Table} (h : s.Stands t) {requests : List Request}
    (hrequests : ∀ r ∈ requests, r.Fits) :
    answers (.file s) requests = answers (.memory t) requests := by
  induction requests generalizing s t with
  | nil => rfl
  | cons r rest ih =>
    rw [List.forall_mem_cons] at hrequests
    obtain ⟨s', t', hfile, hmemory, hstands⟩ := perform_eq h hrequests.1
    rw [answers, answers, hfile, hmemory, ih hstands hrequests.2]

/-- Over a directory without files, or one still to be made, the logs answer whatever is asked of
them as the table in memory does, no matter how often they are opened anew. -/
theorem answers_eq {d : Directory} (hfree : d.presence ≠ .blocked) (hempty : d.nodes = ∅)
    {requests : List Request} (hrequests : ∀ r ∈ requests, r.Fits) :
    answers (.ofKind d .file) (.reopen :: requests) =
      answers (.ofKind d .memory) (.reopen :: requests) := by
  obtain ⟨s, hopen, hstands⟩ := LogStore.stands_load_empty hfree hempty
  have hfirst : perform (.ofKind d .file) .reopen = (.ok .done, .file s) := by
    have hrestart : (Backend.ofKind d .file).restart = .file (.ofDirectory d) := rfl
    simp [perform, hrestart, Store.init, Backend.run, hopen, Except.map]
  rw [answers, hfirst, answers_eq_of_stands hstands hrequests]
  rfl

theorem answers_eq_reopened :
    answers (.ofKind .missing .file) [.reopen, .save ⟨"r", "k", .string "v", 1, 1, none, false⟩,
        .updateExpiry "r" "k" (some 5), .reopen, .deleteExpired 5, .loadAll] =
      answers (.ofKind .missing .memory) [.reopen, .save ⟨"r", "k", .string "v", 1, 1, none, false⟩,
        .updateExpiry "r" "k" (some 5), .reopen, .deleteExpired 5, .loadAll] :=
  answers_eq (by decide) rfl (by
    simp only [List.forall_mem_cons, Fits]
    refine ⟨⟨by decide, trivial, by decide, by decide, nofun⟩, ?_, trivial, trivial, trivial, nofun⟩
    rintro t ⟨⟩
    decide)

end Request
end TierCache
