import TierCache.Proofs.Engine.Upkeep
import TierCache.Proofs.Tiers.Performing

/-!
A new engine that is primed from the store of an old one. Whoever asks cannot tell the two apart: both
tell of the rows of the store that are not expired, the old one from all that it lived through.
-/
namespace TierCache
open Std

namespace Engine

variable {σ : Type} {e : Engine σ}

/-! ### Figures after priming -/

theorem knownCount_setRegion (e : Engine σ) (region : String) (s : Region) :
    (e.setRegion region s).knownCount + (e.regionD region).known.size =
      e.knownCount + s.known.size :=
  e.total_setRegion (f := fun s => s.known.size) (by simp) region s

theorem knownCount_fresh (store : σ) (capacity : Nat) (defaultRegion : String) :
    (fresh store capacity defaultRegion).knownCount = 0 := by
  have hsum := Tree.sum_insert (fun s : Region => s.known.size) (∅ : ExtTreeMap String Region)
    defaultRegion .empty
  simp only [ExtTreeMap.getElem?_empty, Option.elim_none, Tree.sum_empty] at hsum
  exact hsum

theorem knownCount_ensureRegion (e : Engine σ) (region : String) :
    (e.ensureRegion region).knownCount = e.knownCount := by
  obtain ⟨-, heq⟩ | ⟨hnone, heq⟩ := e.ensureRegion_cases region
  · rw [heq]
  · have hcount := e.knownCount_setRegion region .empty
    rw [regionD_of_none hnone] at hcount
    rw [heq]
    omega

theorem knownCount_know {region key : String}
    (hnew : (e.regionD region).known.contains key = false) :
    (e.know region key).knownCount = e.knownCount + 1 := by
  have hcount : (e.know region key).knownCount + (e.regionD region).known.size =
      e.knownCount + ((e.regionD region).known.insert key).size :=
    e.knownCount_setRegion region _
  rw [ExtTreeSet.size_insert, hnew] at hcount
  simp only [Bool.false_eq_true, if_false] at hcount
  omega

theorem knownCount_hold (e : Engine σ) (region key : String) (entry : Entry) :
    (e.hold region key entry).knownCount = e.knownCount := by
  have hcount := e.knownCount_setRegion region
    { e.regionD region with
      memory := (e.regionD region).memory.insert key entry
      lru := (e.regionD region).lru.touch key (e.clock + 1) }
  exact Nat.add_right_cancel hcount

/-- A row that is not in memory is made known, and takes a slot if one is free. -/
theorem primeEntry_cases {entry : Entry} (hout : e.isResident entry.region entry.key = false) :
    let learned := (e.ensureRegion entry.region).know entry.region entry.key
    learned.resident = e.resident ∧
    ((e.resident < e.capacity ∧ e.primeEntry entry =
      ({ learned with resident := e.resident + 1 } : Engine σ).hold entry.region entry.key
        { entry with resident := true }) ∨
    (e.capacity ≤ e.resident ∧ e.primeEntry entry = learned)) := by
  intro learned
  have hslots : learned.resident = e.resident ∧ learned.capacity = e.capacity := by
    obtain ⟨-, heq⟩ | ⟨-, heq⟩ := e.ensureRegion_cases entry.region <;>
      exact ⟨by simp [learned, know, heq], by simp [learned, know, setRegion, heq]⟩
  have hfree : (learned.regionD entry.region).memory.contains entry.key = false := by
    rw [memory_know, e.regionD_ensureRegion]
    exact hout
  refine ⟨hslots.1, ?_⟩
  unfold primeEntry
  dsimp only
  obtain ⟨hroom, htry⟩ | ⟨hfull, htry⟩ := learned.tryReserve_cases
  · refine .inl ⟨by omega, ?_⟩
    split
    · rename_i claimed heq
      cases htry.symm.trans heq
      rw [← hslots.1, install, if_neg, if_pos rfl]
      exact ne_true_of_eq_false hfree
    · rename_i heq
      cases htry.symm.trans heq
  · refine .inr ⟨by omega, ?_⟩
    split
    · rename_i heq
      cases htry.symm.trans heq
    · rename_i heq
      cases htry.symm.trans heq
      rfl

theorem primeEntry_figures {c : Setup} (sound : e.Sound c 0) {entry : Entry}
    (hunknown : (e.regionD entry.region).known.contains entry.key = false)
    (hout : e.isResident entry.region entry.key = false) :
    (e.primeEntry entry).knownCount = e.knownCount + 1 ∧
      (e.primeEntry entry).resident = min c.capacity (e.resident + 1) ∧
      ∀ region key, (e.primeEntry entry).isResident region key = true →
        (entry.region = region ∧ entry.key = key) ∨ e.isResident region key = true := by
  have hcount : ((e.ensureRegion entry.region).know entry.region entry.key).knownCount =
      e.knownCount + 1 := by
    rw [knownCount_know (by rwa [e.regionD_ensureRegion]), knownCount_ensureRegion]
  have hmemory (region : String) :
      (((e.ensureRegion entry.region).know entry.region entry.key).regionD region).memory =
        (e.regionD region).memory := by
    rw [memory_know, e.regionD_ensureRegion]
  have hcapacity := sound.capacity
  have hbounded := sound.bounded
  obtain ⟨hresident, ⟨hroom, heq⟩ | ⟨hfull, heq⟩⟩ := primeEntry_cases hout
  · rw [heq]
    refine ⟨(knownCount_hold ..).trans hcount, ?_, fun region key hin => ?_⟩
    · change e.resident + 1 = _
      omega
    · rw [isResident_eq, memory_hold] at hin
      split at hin
      · rename_i hname
        exact .inl hname
      · refine .inr ?_
        rw [isResident_eq, ← hmemory]
        exact hin
  · rw [heq]
    refine ⟨hcount, by omega, fun region key hin => .inr ?_⟩
    rwa [isResident_eq, ← hmemory, ← isResident_eq]

/-- Rows of different keys that are neither known nor in memory: each is made known, and they take what
slots are free. -/
theorem primeEntries_figures {c : Setup} (sound : e.Sound c 0) {entries : List Entry}
    (hdistinct : entries.Pairwise fun a b => ¬(a.region = b.region ∧ a.key = b.key))
    (hnew : ∀ entry ∈ entries, (e.regionD entry.region).known.contains entry.key = false ∧
      e.isResident entry.region entry.key = false) :
    (entries.foldl primeEntry e).knownCount = e.knownCount + entries.length ∧
      (entries.foldl primeEntry e).resident = min c.capacity (e.resident + entries.length) := by
  induction entries generalizing e with
  | nil =>
    have hcapacity := sound.capacity
    have hbounded := sound.bounded
    exact ⟨rfl, by rw [List.foldl_nil, List.length_nil]; omega⟩
  | cons entry rest ih =>
    obtain ⟨hothers, hrest⟩ := List.pairwise_cons.mp hdistinct
    obtain ⟨hunknown, hout⟩ := hnew entry (.head rest)
    obtain ⟨hcount, hslots, hmemory⟩ := primeEntry_figures sound hunknown hout
    have hkept : ∀ other ∈ rest,
        ((e.primeEntry entry).regionD other.region).known.contains other.key = false ∧
          (e.primeEntry entry).isResident other.region other.key = false := by
      intro other hother
      obtain ⟨hunknown', hout'⟩ := hnew other (.tail entry hother)
      have hne := hothers other hother
      refine ⟨Bool.eq_false_iff.mpr fun hknown => ?_, Bool.eq_false_iff.mpr fun hin => ?_⟩
      · obtain hname | hold := (e.known_primeEntry entry other.region other.key).mp hknown
        · exact hne hname
        · exact Bool.eq_false_iff.mp hunknown' hold
      · obtain hname | hold := hmemory other.region other.key hin
        · exact hne hname
        · exact Bool.eq_false_iff.mp hout' hold
    obtain ⟨hcounts, hall⟩ := ih (KeepsBooks.primeEntry entry e c sound 0).1 hrest hkept
    rw [List.foldl_cons, hcounts, hall, hcount, hslots, List.length_cons]
    omega

end Engine

/-! ### Questions -/

theorem Engine.ttl_row {σ : Type} [Store σ] (e : Engine σ) (now : Nat) (region key : String) :
    (e.ttl now region key).1 =
      ((e.peek now region key).1.map Entry.row).elim (-2) (·.secondsLeft now) := by
  rw [ttl]
  obtain ⟨found, e'⟩ := e.peek now region key
  cases found with
  | none => rfl
  | some entry => exact (entry.secondsLeft_row now).symm

/-- A question, from a reading of the clock on. -/
structure Call.Asks (picky : Prop) (since : Nat) (c : Call) : Prop where
  since : since ≤ c.now
  inRange : InRange picky c.now
  asks : c.operation.asks = true

namespace Tiers

variable {σ τ : Type} {picky : Prop} {stands : σ → Table → Prop} {stands' : τ → Table → Prop}
  {since start : Nat} {e : Engine σ} {e' : Engine τ} {t : Table}

/-- What is seen of a key is its row, until it is expired. -/
theorem visible?_eq (h : Tiers picky stands (fun _ _ => False) since e t) (now : Nat)
    (region key : String) : (e.cell t region key).visible? now =
      ((t.get? region key).map Entry.row).filter (·.isVisible now) := by
  rw [Cell.visible?, (h.cells region key).held_eq]
  rfl

/-- What is seen is known, so that it counts. -/
theorem counts_eq (h : Tiers picky stands (fun _ _ => False) since e t) {now : Nat}
    (hle : since ≤ now) (region key : String) :
    ((e.cell t region key).known && ((e.cell t region key).visible? now).isSome) =
      ((e.cell t region key).visible? now).isSome := by
  cases hseen : ((e.cell t region key).visible? now).isSome with
  | false => rw [Bool.and_false]
  | true =>
    rw [Bool.and_true]
    exact h.known_of_live hle id (Option.isSome_iff_exists.mp hseen)

variable [Store σ] [Store τ] (dependable : Dependable picky stands)
  (dependable' : Dependable picky stands')
include dependable

theorem askedAll {spared : String → String → Prop} (h : Tiers picky stands spared since e t)
    (hle : since ≤ start) {asked : List Call} (hasked : ∀ c ∈ asked, c.Asks picky start) :
    Rested picky stands spared since e t (e.performAll asked) := by
  induction asked generalizing e with
  | nil => exact .refl h
  | cons call rest ih =>
    have hcall := hasked call (.head rest)
    have hfirst := h.asked dependable (Nat.le_trans hle hcall.since) hcall.inRange hcall.asks
    exact hfirst.trans (ih hfirst.tiers fun c hc => hasked c (.tail call hc))

include dependable'

/-- Two engines whose stores stand for the same rows give the same replies. -/
theorem reply_eq {α : Type} (h : Tiers picky stands (fun _ _ => False) since e t)
    (h' : Tiers picky stands' (fun _ _ => False) start e' t) {now : Nat} (hle : since ≤ now)
    (hle' : start ≤ now) (hnow : InRange picky now) {op : Operation α} (hop : op.asks = true) :
    (e.perform now op).1 = (e'.perform now op).1 := by
  have hseen (region key : String) :
      (e.cell t region key).visible? now = (e'.cell t region key).visible? now := by
    rw [h.visible?_eq, h'.visible?_eq]
  have hpeek (region key : String) :
      (e.peek now region key).1.map Entry.row = (e'.peek now region key).1.map Entry.row := by
    obtain ⟨found, s, hpeek, hfound, -⟩ := h.peek dependable now region key
    obtain ⟨found', s', hpeek', hfound', -⟩ := h'.peek dependable' now region key
    rw [hpeek, hpeek', hfound.row, hfound'.row, hseen]
  have hkeys (region pattern : String) :
      (e.keys now region pattern).1 = (e'.keys now region pattern).1 := by
    obtain ⟨names, e₁, hkeys, hordered, hnames, -⟩ := h.keys dependable now region pattern
    obtain ⟨names', e₁', hkeys', hordered', hnames', -⟩ := h'.keys dependable' now region pattern
    rw [hkeys, hkeys']
    apply Tree.eq_of_ordered hordered hordered'
    intro key
    simp only [hnames, hnames', ← Bool.and_eq_true, h.counts_eq hle, h'.counts_eq hle']
    rw [hseen]
  cases op with
  | read region key =>
    obtain ⟨found, e₁, hget, hfound, -⟩ := h.getEntry dependable hle hnow region key
    obtain ⟨found', e₁', hget', hfound', -⟩ := h'.getEntry dependable' hle' hnow region key
    simp only [Engine.perform, hget, hget', hfound.row, hfound'.row, hseen]
  | get region key =>
    obtain ⟨e₁, hget, -⟩ := h.get dependable hle hnow region key
    obtain ⟨e₁', hget', -⟩ := h'.get dependable' hle' hnow region key
    simp only [Engine.perform, hget, hget', hseen]
  | countLive region keys =>
    obtain ⟨e₁, hcount, -⟩ := h.exists? dependable now region keys
    obtain ⟨e₁', hcount', -⟩ := h'.exists? dependable' now region keys
    simp only [Engine.perform, hcount, hcount', h.counts_eq hle, h'.counts_eq hle']
    simp only [hseen]
  | ttl region key =>
    simp only [Engine.perform, Engine.ttl_row, hpeek]
  | typeOf region key =>
    have htype := congrArg (Option.map (·.value.dataType)) (hpeek region key)
    rw [Option.map_map, Option.map_map] at htype
    exact htype
  | keys region pattern => exact hkeys region pattern
  | scan region cursor pattern count =>
    exact congrArg (Engine.page · cursor count) (hkeys region pattern)
  | _ => cases hop

end Tiers

/-- One engine in the place of another from a reading of the clock on: whoever asks is told the same,
the keys it knows are those that the other shows at that reading, and they take what slots there are. -/
structure Engine.Replaces {σ : Type} [Store σ] (picky : Prop) (e old : Engine σ) (capacity since : Nat) :
    Prop where
  replies {asked asked' : List Call} (h : ∀ c ∈ asked, c.Asks picky since)
    (h' : ∀ c ∈ asked', c.Asks picky since) {c : Call} (hc : c.Asks picky since) :
    ((e.performAll asked).perform c.now c.operation).1 =
      ((old.performAll asked').perform c.now c.operation).1
  known (region key : String) : (e.regionD region).known.contains key =
    (old.perform since (.read region key)).1.isSome
  resident : e.resident = min capacity e.knownCount
  residents : e.residents = e.resident

namespace Tiers

variable {σ : Type} [Store σ] {picky : Prop} {stands : σ → Table → Prop}
  (dependable : Dependable picky stands) {old : Engine σ} {t : Table} {store : σ}
include dependable

/-- Priming a fresh engine tells how many keys it knows then, and they take what slots there are. -/
theorem figures_primed (hstore : stands store t) (named : t.Named) (capacity : Nat)
    (defaultRegion : String) (now : Nat) :
    let primed := (Engine.fresh store capacity defaultRegion).prime now
    primed.1 = .ok primed.2.knownCount ∧ primed.2.resident = min capacity primed.2.knownCount ∧
      primed.2.residents = primed.2.resident := by
  intro primed
  have hfresh : Tiers picky stands (fun _ _ => True) now
      (Engine.fresh store capacity defaultRegion) t :=
    .fresh hstore named (fun _ _ _ _ => .inr trivial) capacity defaultRegion
  obtain ⟨entries, s, hprime, -, -, hperm, hentries⟩ := hfresh.prime dependable now
  have hnodup : entries.Nodup :=
    hperm.nodup_iff.mpr ((t.nodup_entries named).filter _)
  have hdistinct : entries.Pairwise fun a b => ¬(a.region = b.region ∧ a.key = b.key) := by
    refine hnodup.imp_of_mem fun {a b} ha hb hne hname => hne ?_
    have hrow := ((hentries a).mp ha).1
    rw [hname.1, hname.2, ((hentries b).mp hb).1] at hrow
    exact (Option.some.inj hrow).symm
  have sound := Engine.Sound.fresh s capacity defaultRegion
  obtain ⟨hcount, hslots⟩ := Engine.primeEntries_figures sound hdistinct fun entry _ => by
    simp [Engine.isResident_eq]
  have hbooks : primed.2.resident = primed.2.residents :=
    (Engine.KeepsBooks.prime now _ _ (.fresh store capacity defaultRegion) 0).1.resident
  have hprimed : primed = (.ok entries.length,
      entries.foldl Engine.primeEntry (.fresh s capacity defaultRegion)) := hprime
  rw [Engine.knownCount_fresh, Nat.zero_add] at hcount
  have hzero : (Engine.fresh s capacity defaultRegion).resident = 0 := rfl
  rw [hzero, Nat.zero_add] at hslots
  refine ⟨?_, ?_, hbooks.symm⟩
  · rw [hprimed, hcount]
  · rw [hprimed, hcount, hslots]

/-- A new engine that is primed from the rows of an old one replaces it. -/
theorem replaced (h : Tiers picky stands (fun _ _ => False) 0 old t) (hstore : stands store t)
    (capacity : Nat) (defaultRegion : String) {now : Nat} (hnow : InRange picky now) :
    let primed := (Engine.fresh store capacity defaultRegion).prime now
    primed.1 = .ok primed.2.knownCount ∧ primed.2.Replaces picky old capacity now := by
  intro primed
  obtain ⟨hreply, hresident, hresidents⟩ :=
    figures_primed dependable hstore h.named capacity defaultRegion now
  obtain ⟨hprimed, hknown⟩ := Tiers.primed dependable hstore h.named capacity defaultRegion now
  refine ⟨hreply, ?_, ?_, hresident, hresidents⟩
  · intro asked asked' hasked hasked' c hc
    have hnew := (hprimed.askedAll dependable (Nat.le_refl now) hasked).tiers
    have hold := (h.askedAll dependable (Nat.zero_le now) hasked').tiers
    exact hnew.reply_eq dependable dependable hold hc.since (Nat.zero_le _) hc.inRange hc.asks
  · intro region key
    obtain ⟨found, e', hget, hseen, -⟩ := h.getEntry dependable (Nat.zero_le now) hnow region key
    rw [Bool.eq_iff_iff, hknown]
    simp only [Engine.perform, hget, Option.isSome_map, hseen.isSome, h.visible?_eq]
    cases t.get? region key with
    | none => simp
    | some entry => simp [Option.isSome_filter, entry.isVisible_row]

end Tiers

namespace Engine

/-- An engine that is primed from the store of another stands in for it, whatever the other lived
through since the store was empty. If the store is one of logs, opening their directory anew gives the
same rows, as long as regions have names and sorted sets finite scores. -/
theorem replaces_primed {σ : Type} [Store σ] {stands : σ → Table → Prop} (reliable : Reliable stands)
    {store : σ} (hstore : stands store .empty) (capacity capacity' : Nat)
    (defaultRegion defaultRegion' : String) :
    (∀ (calls : List Call) (now : Nat),
      let old := (fresh store capacity defaultRegion).performAll calls
      let primed := (fresh old.store capacity' defaultRegion').prime now
      primed.1 = .ok primed.2.knownCount ∧ primed.2.Replaces False old capacity' now) ∧
    ∀ d : Directory, d.presence ≠ .blocked → d.nodes = ∅ →
      ∃ logs, Store.init (LogStore.ofDirectory d) = (.ok (), logs) ∧
        ∀ calls : List Call, (∀ c ∈ calls, c.Fits True) →
          let old := (fresh logs capacity defaultRegion).performAll calls
          ∃ opened, Store.init (LogStore.ofDirectory old.store.directory) = (.ok (), opened) ∧
            ∀ now ≤ Text.maxUnsigned,
              let primed := (fresh opened capacity' defaultRegion').prime now
              primed.1 = .ok primed.2.knownCount ∧ primed.2.Replaces True old capacity' now := by
  constructor
  · intro calls now
    have dependable := Dependable.of_reliable reliable
    have hfresh : Tiers False stands (fun _ _ => False) 0 (fresh store capacity defaultRegion) .empty :=
      .fresh hstore Table.named_empty nofun capacity defaultRegion
    obtain ⟨t, h⟩ := Tiers.performAll dependable calls (fun c _ => ⟨Nat.zero_le _, c.fits_any⟩)
      ⟨.empty, hfresh⟩
    exact h.replaced dependable h.stored capacity' defaultRegion' False.elim
  · intro d hfree hempty
    obtain ⟨logs, hload, hlogs⟩ := LogStore.stands_load_empty hfree hempty
    refine ⟨logs, hload, fun calls hcalls => ?_⟩
    have hfresh : Tiers True LogStore.Stands (fun _ _ => False) 0
        (fresh logs capacity defaultRegion) .empty :=
      .fresh hlogs Table.named_empty nofun capacity defaultRegion
    obtain ⟨t, h⟩ := Tiers.performAll .logs calls (fun c hc => ⟨Nat.zero_le _, hcalls c hc⟩)
      ⟨.empty, hfresh⟩
    obtain ⟨opened, hopen, hopened⟩ := h.stored.reopen
    refine ⟨opened, hopen, fun now hnow => ?_⟩
    exact h.replaced .logs hopened capacity' defaultRegion' fun _ => hnow

/-- A key with an infinite score is there until a restart, over logs. -/
theorem boundless_forgotten :
    let logs := Store.init (LogStore.ofDirectory .missing)
    let old := (fresh logs.2 1 "main").performAll [⟨1, _, .setValue "main" "k" .boundless none⟩]
    let opened := Store.init (LogStore.ofDirectory old.store.directory)
    let primed := (fresh opened.2 1 "main").prime 5
    logs.1 = .ok () ∧ opened.1 = .ok () ∧ (old.perform 5 (.countLive "main" ["k"])).1 = 1 ∧
      primed.1 = .ok 0 ∧ (primed.2.perform 5 (.countLive "main" ["k"])).1 = 0 ∧
      ¬ primed.2.Replaces True old 1 5 := by
  intro logs old opened primed
  obtain ⟨hlogs, hold, hopened, hprimed, hnew⟩ : logs.1 = .ok () ∧
      (old.perform 5 (.countLive "main" ["k"])).1 = 1 ∧ opened.1 = .ok () ∧ primed.1 = .ok 0 ∧
      (primed.2.perform 5 (.countLive "main" ["k"])).1 = 0 := by
    decide +kernel
  refine ⟨hlogs, hopened, hold, hprimed, hnew, fun h => ?_⟩
  have hasks : Call.Asks True 5 ⟨5, _, .countLive "main" ["k"]⟩ :=
    ⟨le_rfl, fun _ => by decide, rfl⟩
  have hsame : (primed.2.perform 5 (.countLive "main" ["k"])).1 =
      (old.perform 5 (.countLive "main" ["k"])).1 :=
    @h.replies [] [] nofun nofun _ hasks
  rw [hnew, hold] at hsame
  cases hsame

/-- A key that is yet to expire is there after a restart, too. -/
theorem replaces_primed_expiring :
    let calls : List Call := [⟨1, _, .setValue "main" "k" (.string "v") (some 9)⟩]
    let old := (fresh Table.empty 1 "main").performAll calls
    let primed := (fresh old.store 3 "main").prime 5
    (Table.empty = Table.empty ∧ primed.1 = .ok 1 ∧ primed.2.Replaces False old 3 5) ∧
      ∃ logs, Store.init (LogStore.ofDirectory .missing) = (.ok (), logs) ∧
        (∀ c ∈ calls, c.Fits True) ∧
        let old := (fresh logs 1 "main").performAll calls
        ∃ opened, Store.init (LogStore.ofDirectory old.store.directory) = (.ok (), opened) ∧
          5 ≤ Text.maxUnsigned ∧ ((fresh opened 3 "main").prime 5).2.Replaces True old 3 5 := by
  intro calls old primed
  have hcalls : ∀ c ∈ calls, c.Fits True := by
    simp only [calls, List.forall_mem_cons, Call.Fits, Operation.Fits]
    refine ⟨⟨fun _ => by decide, fun _ => ⟨by decide, trivial, ?_⟩⟩, nofun⟩
    rintro _ ⟨⟩
    decide
  have hnow : 5 ≤ Text.maxUnsigned := by decide
  obtain ⟨hrows, hlogs⟩ :=
    replaces_primed Table.reliable (rfl : Table.empty = Table.empty) 1 3 "main" "main"
  obtain ⟨logs, hinit, hold⟩ := hlogs .missing (by decide) rfl
  obtain ⟨opened, hopened, hprimed⟩ := hold calls hcalls
  have hone : primed.1 = .ok 1 := by decide +kernel
  exact ⟨⟨rfl, hone, (hrows calls 5).2⟩, logs, hinit, hcalls, opened, hopened, hnow,
    (hprimed 5 hnow).2⟩

end Engine
end TierCache
