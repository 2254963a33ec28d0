import Std.Data.String.ToInt
import TierCache.Proofs.Outage.Commands
import TierCache.Proofs.Protocol.Sweeps
import TierCache.Proofs.Tiers.Known
import Mathlib.Data.List.Chain

/-!
Scans. The cursor of a scan is a place in the listing of the moment: how many keys are in front of the
next page. A key that stays is found as long as no key that the scan has passed goes away; when one
does, the listing moves up under the cursor, and the key that comes to stand in front of it is missed.
-/
namespace TierCache
open Std

/-! ## One page -/

namespace Engine

variable {names : List String} {cursor count : Nat}

/-- A page that is not the last one ends in front of the next cursor, and holds a key. -/
theorem page_next (h : (page names cursor count).cursor ≠ 0) :
    cursor < (page names cursor count).cursor ∧ (page names cursor count).cursor < names.length ∧
      (page names cursor count).keys = (names.take (page names cursor count).cursor).drop cursor := by
  simp only [page] at h ⊢
  have hstop : ¬names.length ≤ min (min cursor names.length + max count 1) names.length :=
    fun hle => h (if_pos hle)
  have hstart : min cursor names.length = cursor := by omega
  rw [if_neg hstop, hstart]
  refine ⟨?_, ?_, rfl⟩ <;> omega

/-- The last page goes on to the end of the listing. -/
theorem page_last (h : (page names cursor count).cursor = 0) {place : Nat} (hcursor : cursor ≤ place)
    {key : String} (hplace : names[place]? = some key) : key ∈ (page names cursor count).keys := by
  obtain ⟨hlt, hkey⟩ := List.getElem?_eq_some_iff.mp hplace
  simp only [page] at h ⊢
  have hstop : names.length ≤ min (min cursor names.length + max count 1) names.length := by
    by_contra hlt
    rw [if_neg hlt] at h
    omega
  rw [List.take_of_length_le hstop, List.mem_iff_getElem?]
  refine ⟨place - min cursor names.length, ?_⟩
  rw [List.getElem?_drop, ← hplace]
  congr 1
  omega

/-- What is in front of the next cursor is not behind the last key of the page. -/
theorem passed_page (hsorted : names.Pairwise (· < ·)) (h : (page names cursor count).cursor ≠ 0)
    {key : String} (hkey : key ∈ names.take (page names cursor count).cursor) :
    ∃ last ∈ (page names cursor count).keys, key ≤ last := by
  obtain ⟨hcursor, hlength, hkeys⟩ := page_next h
  generalize (page names cursor count).cursor = stop at *
  obtain ⟨k, hk, rfl⟩ := List.mem_iff_getElem.mp hkey
  rw [List.getElem_take]
  rw [List.length_take] at hk
  refine ⟨names[stop - 1], ?_, ?_⟩
  · rw [hkeys, List.mem_iff_getElem?]
    refine ⟨stop - 1 - cursor, ?_⟩
    rw [List.getElem?_drop, Nat.add_sub_cancel' (by omega), List.getElem?_take_of_lt (by omega),
      List.getElem?_eq_getElem (by omega)]
  · obtain rfl | hlt := Nat.eq_or_lt_of_le (show k ≤ stop - 1 by omega)
    · exact String.le_refl _
    · have hless := List.pairwise_iff_getElem.mp hsorted k (stop - 1) (by omega) (by omega) hlt
      exact String.not_lt.mp (String.lt_asymm hless)

/-- A key at the cursor or behind it is on the page or behind the next cursor. -/
theorem mem_page (count : Nat) {place : Nat} (hcursor : cursor ≤ place) {key : String}
    (hplace : names[place]? = some key) :
    key ∈ (page names cursor count).keys ∨
      (page names cursor count).cursor ≠ 0 ∧ (page names cursor count).cursor ≤ place := by
  by_cases hlast : (page names cursor count).cursor = 0
  · exact .inl (page_last hlast hcursor hplace)
  obtain hbefore | hbehind := Nat.lt_or_ge place (page names cursor count).cursor
  · left
    rw [(page_next hlast).2.2, List.mem_iff_getElem?]
    refine ⟨place - cursor, ?_⟩
    rw [List.getElem?_drop, Nat.add_sub_cancel' hcursor, List.getElem?_take_of_lt hbefore, hplace]
  · exact .inr ⟨hlast, hbehind⟩

end Engine

/-- In a listing that still has all the keys of another one in front of a place behind which a key
stands, the key does not stand in front of that place. -/
theorem place_le {names names' : List String} (hnames : names.Pairwise (· < ·))
    (hnames' : names'.Pairwise (· < ·)) {stop place place' : Nat} {key : String} (hstop : stop ≤ place)
    (hplace : names[place]? = some key) (hplace' : names'[place']? = some key)
    (hkept : names.take stop ⊆ names') : stop ≤ place' := by
  obtain ⟨hlt, rfl⟩ := List.getElem?_eq_some_iff.mp hplace
  have hfront : names.take stop ⊆ names'.take place' := by
    intro other hother
    have hless : other < names[place] := by
      obtain ⟨k, hk, rfl⟩ := List.mem_iff_getElem.mp hother
      rw [List.getElem_take]
      rw [List.length_take] at hk
      exact List.pairwise_iff_getElem.mp hnames k place (by omega) hlt (by omega)
    obtain ⟨hlt', hkey'⟩ := List.getElem?_eq_some_iff.mp hplace'
    obtain ⟨j, hj, rfl⟩ := List.mem_iff_getElem.mp (hkept hother)
    rw [List.mem_iff_getElem]
    refine ⟨j, ?_, List.getElem_take⟩
    rw [List.length_take, lt_min_iff]
    refine ⟨?_, hj⟩
    by_contra hbehind
    obtain heq | hlater := Nat.eq_or_lt_of_le (Nat.le_of_not_lt hbehind)
    · subst heq
      exact String.lt_irrefl _ (hkey' ▸ hless)
    · have hgreater := List.pairwise_iff_getElem.mp hnames' place' j hlt' hj hlater
      exact String.lt_asymm hless (hkey' ▸ hgreater)
  have hnodup : (names.take stop).Nodup :=
    (hnames.imp String.ne_of_lt).sublist (List.take_sublist stop names)
  have hlength := hnodup.length_le_of_subset hfront
  rw [List.length_take, List.length_take] at hlength
  omega

/-! ## A whole scan -/

/-- A page is told by its cursor and its keys. -/
theorem Reply.page_inj {cursor cursor' : Nat} {keys keys' : List String}
    (h : Reply.nested [.text (toString cursor), .array keys] =
      .nested [.text (toString cursor'), .array keys']) : cursor = cursor' ∧ keys = keys' := by
  simpa [Reply.text, Nat.repr_inj] using h

variable {σ : Type} [Store σ]

/-- One page of a scan: the instance and the time at which it is asked for, and its keys. -/
structure Visit (σ : Type) where
  node : Instance σ
  now : Nat
  keys : List String

/-- The key is there for a reader, and a scan for the pattern asks for it. -/
def Visit.Offers (v : Visit σ) (region pattern key : String) : Prop :=
  Glob.accepts pattern key = true ∧ (v.node.engine.perform v.now (.read region key)).1.isSome = true

theorem Instance.scan_reply {i : Instance σ} {now cursor count next : Nat}
    {region pattern : String} {keys : List String}
    (h : (i.engine.scan now region cursor pattern count).1 = ⟨next, keys⟩) (steady : Nat) :
    (i.perform ⟨now, steady⟩ region (.scan cursor pattern count)).1 =
      .nested [.text (toString next), .array keys] :=
  congrArg (fun page : Page => Reply.nested [.text (toString page.cursor), .array page.keys]) h

instance (v : Visit σ) (region pattern key : String) : Decidable (v.Offers region pattern key) :=
  inferInstanceAs (Decidable (_ ∧ _))

/-- A scan from a cursor on. Before each page the instance serves whatever comes; each page starts at
the cursor that the one before gave, and the last one gives zero. The clock does not read less than
`since`. -/
inductive Scans (region pattern : String) (since : Nat) :
    Instance σ → (cursor : Nat) → List (Visit σ) → Prop
  | last {i cursor} {steps : List Instance.Step} {clock : Clock} {count : Nat} {keys : List String}
      (hsteps : ∀ s ∈ steps, since ≤ s.now) (hclock : since ≤ clock.wall)
      (hpage : ((i.serve steps).perform clock region (.scan cursor pattern count)).1 =
        .nested [.text (toString 0), .array keys]) :
      Scans region pattern since i cursor [⟨i.serve steps, clock.wall, keys⟩]
  | next {i cursor} {steps : List Instance.Step} {clock : Clock} {count next : Nat}
      {keys : List String} {visits : List (Visit σ)} (hsteps : ∀ s ∈ steps, since ≤ s.now)
      (hclock : since ≤ clock.wall)
      (hpage : ((i.serve steps).perform clock region (.scan cursor pattern count)).1 =
        .nested [.text (toString next), .array keys]) (hnext : next ≠ 0)
      (hrest : Scans region pattern since
        ((i.serve steps).perform clock region (.scan cursor pattern count)).2 next visits) :
      Scans region pattern since i cursor (⟨i.serve steps, clock.wall, keys⟩ :: visits)

/-- From one page to the next no key went away that the scan had passed. -/
def Visit.Keeps (region pattern : String) (v w : Visit σ) : Prop :=
  ∀ key, v.Offers region pattern key → (∃ last ∈ v.keys, key ≤ last) → w.Offers region pattern key

/-- No row is hidden: what can be seen in both tiers from a reading of the clock on is known. -/
abbrev Engine.Open (stands : σ → Table → Prop) (since : Nat) (e : Engine σ) : Prop :=
  Tiers.Stand False stands (fun _ _ => False) since e

section
variable {stands : σ → Table → Prop} {since now : Nat} {i : Instance σ}
  (dependable : Dependable False stands)
include dependable

theorem open_run {α : Type} (h : i.engine.Open stands since) (hnow : since ≤ now) (op : Operation α) :
    (i.run now (·.perform now op)).2.engine.Open stands since := by
  obtain ⟨t, ht⟩ := h
  obtain ⟨t', ht'⟩ := ht.perform dependable hnow False.elim op.fits_any
  rw [Instance.engine_run]
  exact ⟨t', ht'.of_regions ht'.stored rfl⟩

theorem open_perform (h : i.engine.Open stands since) {clock : Clock} (hclock : since ≤ clock.wall)
    (region : String) (c : Command) :
    (i.perform clock region c).2.engine.Open stands since := by
  obtain ⟨α, op, hrun, -⟩ | ⟨hsame, -⟩ := i.perform_runs clock region c
  · rw [hrun]
    exact open_run dependable h hclock op
  · rw [hsame]
    exact h

/-- Commands and sweeps hide no row. -/
theorem open_step (h : i.engine.Open stands since) {s : Instance.Step} (hs : since ≤ s.now) :
    (i.step s).engine.Open stands since := by
  cases s with
  | sweep now => exact open_run dependable h hs .sweep
  | command clock tokens =>
    rw [Instance.step, Instance.execute]
    split
    · exact h
    · exact open_perform dependable h hs _ _

theorem open_serve {steps : List Instance.Step} (hsteps : ∀ s ∈ steps, since ≤ s.now)
    (h : i.engine.Open stands since) : (i.serve steps).engine.Open stands since := by
  induction steps generalizing i with
  | nil => exact h
  | cons s rest ih =>
    obtain ⟨hs, hrest⟩ := List.forall_mem_cons.mp hsteps
    exact ih hrest (open_step dependable h hs)

/-- A page is cut from the keys that are offered, in order. -/
theorem page_offered (h : i.engine.Open stands since) {clock : Clock} (hclock : since ≤ clock.wall)
    (region pattern : String) (cursor count : Nat) :
    ∃ names : List String, names.Pairwise (· < ·) ∧
      (∀ keys key, key ∈ names ↔ (⟨i, clock.wall, keys⟩ : Visit σ).Offers region pattern key) ∧
      (i.perform clock region (.scan cursor pattern count)).1 =
        .nested [.text (toString (Engine.page names cursor count).cursor),
          .array (Engine.page names cursor count).keys] := by
  obtain ⟨t, ht⟩ := h
  obtain ⟨names, e', hkeys, hsorted, hnames, -⟩ := ht.keys dependable clock.wall region pattern
  refine ⟨names, hsorted.imp compareOfLessAndEq_eq_lt.mp, fun keys key => ?_, ?_⟩
  · obtain ⟨found, e'', hget, hseen, -⟩ := ht.getEntry dependable hclock False.elim region key
    have hread : (i.engine.perform clock.wall (.read region key)).1 =
        (i.engine.cell t region key).visible? clock.wall := by
      simp only [Engine.perform, hget, hseen.row]
    rw [hnames, Visit.Offers, hread]
    constructor
    · rintro ⟨haccepts, -, hvisible⟩
      exact ⟨haccepts, hvisible⟩
    · rintro ⟨haccepts, hvisible⟩
      exact ⟨haccepts, ht.known_of_live hclock id (Option.isSome_iff_exists.mp hvisible), hvisible⟩
  · simp only [Instance.perform, Instance.answer, Instance.run, Engine.scan, hkeys]

/-- A page that is the whole listing holds just the keys that are offered. -/
theorem offers_iff (h : i.engine.Open stands since) {clock : Clock} (hclock : since ≤ clock.wall)
    {region pattern : String} {count : Nat} {all : List String}
    (hpage : (i.perform clock region (.scan 0 pattern count)).1 =
      .nested [.text (toString 0), .array all]) (keys : List String) (key : String) :
    (⟨i, clock.wall, keys⟩ : Visit σ).Offers region pattern key ↔ key ∈ all := by
  obtain ⟨names, -, hnames, hreply⟩ := page_offered dependable h hclock region pattern 0 count
  obtain ⟨hend, rfl⟩ := Reply.page_inj (hpage.symm.trans hreply)
  rw [← hnames]
  constructor
  · intro hkey
    obtain ⟨place, hplace⟩ := List.mem_iff_getElem?.mp hkey
    exact Engine.page_last hend.symm (Nat.zero_le place) hplace
  · exact fun hkey => List.mem_of_mem_take (List.mem_of_mem_drop hkey)

end

/-- In the listing of the keys offered, the key does not stand in front of the cursor. -/
def Visit.Behind (v : Visit σ) (region pattern key : String) (cursor : Nat) : Prop :=
  ∀ names : List String, names.Pairwise (· < ·) →
    (∀ other, other ∈ names ↔ v.Offers region pattern other) →
      ∃ place, names[place]? = some key ∧ cursor ≤ place

/-- A scan comes to a key that its cursor has not passed. -/
theorem Scans.returns {stands : σ → Table → Prop} (dependable : Dependable False stands)
    {region pattern key : String} {since : Nat} {i : Instance σ} {cursor : Nat}
    {visits : List (Visit σ)} (h : Scans region pattern since i cursor visits)
    (hopen : i.engine.Open stands since) (hkept : visits.IsChain (Visit.Keeps region pattern))
    (hoffered : ∀ v ∈ visits, v.Offers region pattern key)
    (hbehind : ∀ v ∈ visits.head?, v.Behind region pattern key cursor) :
    ∃ v ∈ visits, key ∈ v.keys := by
  induction h with
  | @last i cursor steps clock count keys hsteps hclock hpage =>
    have hserved := open_serve dependable hsteps hopen
    obtain ⟨names, hsorted, hnames, hreply⟩ :=
      page_offered dependable hserved hclock region pattern cursor count
    obtain ⟨hend, rfl⟩ := Reply.page_inj (hpage.symm.trans hreply)
    obtain ⟨place, hplace, hle⟩ := hbehind _ rfl names hsorted (hnames _)
    exact ⟨_, List.mem_cons_self, Engine.page_last hend.symm hle hplace⟩
  | @next i cursor steps clock count next keys visits hsteps hclock hpage hnext hrest ih =>
    have hserved := open_serve dependable hsteps hopen
    obtain ⟨names, hsorted, hnames, hreply⟩ :=
      page_offered dependable hserved hclock region pattern cursor count
    obtain ⟨rfl, rfl⟩ := Reply.page_inj (hpage.symm.trans hreply)
    obtain ⟨place, hplace, hle⟩ := hbehind _ rfl names hsorted (hnames _)
    obtain hfound | ⟨-, hstop⟩ := Engine.mem_page count hle hplace
    · exact ⟨_, List.mem_cons_self, hfound⟩
    obtain ⟨hkeeps, hchain⟩ := List.isChain_cons.mp hkept
    obtain ⟨-, hlater⟩ := List.forall_mem_cons.mp hoffered
    -- the key was not on this page, so in the next listing it is not in front of the new cursor
    suffices hbehind' : ∀ w ∈ visits.head?,
        w.Behind region pattern key (Engine.page names cursor count).cursor by
      obtain ⟨v, hv, hkey⟩ :=
        ih (open_perform dependable hserved hclock region _) hchain hlater hbehind'
      exact ⟨v, List.mem_cons_of_mem _ hv, hkey⟩
    intro w hw names' hsorted' hnames'
    have hwkey := hlater w (List.mem_of_mem_head? hw)
    obtain ⟨place', hplace'⟩ := List.mem_iff_getElem?.mp ((hnames' key).mpr hwkey)
    refine ⟨place', hplace', place_le hsorted hsorted' hstop hplace hplace' ?_⟩
    intro other hother
    rw [hnames']
    exact hkeeps w hw other ((hnames _ other).mp (List.mem_of_mem_take hother))
      (Engine.passed_page hsorted hnext hother)

/-- A scan from the start to the end, with commands and sweeps between its pages, comes to each key that
is offered at every page, provided that no key it has passed goes away between two pages. The engine
started over rows of which none could be seen any more, or was primed. -/
theorem scan_returns {stands : σ → Table → Prop} (reliable : Reliable stands) {store : σ} {t₀ : Table}
    (hstore : stands store t₀) (named : t₀.Named) (capacity : Nat) (defaultRegion : String)
    {since : Nat} {node : Instance σ}
    (hnode : node.engine = Engine.fresh store capacity defaultRegion ∧
        (∀ region key entry, t₀.get? region key = some entry → entry.isExpired since = true) ∨
      node.engine = ((Engine.fresh store capacity defaultRegion).prime since).2)
    {region pattern key : String} {visits : List (Visit σ)}
    (hscan : Scans region pattern since node 0 visits)
    (hoffered : ∀ v ∈ visits, v.Offers region pattern key)
    (hkept : visits.IsChain (Visit.Keeps region pattern)) : ∃ v ∈ visits, key ∈ v.keys := by
  have dependable := Dependable.of_reliable reliable
  have hopen : node.engine.Open stands since := by
    obtain ⟨hfresh, hexpired⟩ | hprimed := hnode
    · rw [hfresh]
      exact ⟨t₀, .fresh hstore named (fun region key entry h => .inl (hexpired region key entry h)) _ _⟩
    · rw [hprimed]
      exact ⟨t₀, (Tiers.primed dependable hstore named capacity defaultRegion since).1⟩
  refine hscan.returns dependable hopen hkept hoffered ?_
  intro v hv names hsorted hnames
  have hkey := (hnames key).mpr (hoffered v (List.mem_of_mem_head? hv))
  obtain ⟨place, hplace⟩ := List.mem_iff_getElem?.mp hkey
  exact ⟨place, hplace, Nat.zero_le place⟩

/-- A key comes in between two pages, in front of the one that was passed; the scan comes to the last
key all the same. -/
theorem scan_returns_inserted :
    let node := Instance.start (.fresh Table.empty 8 "main") (.standalone "one") true true ⟨0, 0⟩
    let set (key : String) : Instance.Step := .command ⟨5, 5⟩ ["SET", key, "v"]
    let first := node.serve [set "b", set "c"]
    let second := (first.perform ⟨5, 5⟩ "main" (.scan 0 "*" 1)).2.serve [set "a"]
    let visits : List (Visit Table) := [⟨first, 5, ["b"]⟩, ⟨second, 5, ["b", "c"]⟩]
    Table.empty = Table.empty ∧ Table.empty.Named ∧
      (node.engine = .fresh Table.empty 8 "main" ∧
        ∀ region key entry, Table.empty.get? region key = some entry → entry.isExpired 0 = true) ∧
      Scans "main" "*" 0 node 0 visits ∧ (∀ v ∈ visits, v.Offers "main" "*" "c") ∧
      visits.IsChain (Visit.Keeps "main" "*") ∧ ∃ v ∈ visits, "c" ∈ v.keys := by
  intro node set first second visits
  have hexpired : ∀ region key entry, Table.empty.get? region key = some entry →
      entry.isExpired 0 = true := fun region key entry h => by simp [Table.get?, Table.empty] at h
  have hfirst : (first.engine.scan 5 "main" 0 "*" 1).1 = ⟨1, ["b"]⟩ := by decide +kernel
  have hsecond : (second.engine.scan 5 "main" 1 "*" 10).1 = ⟨0, ["b", "c"]⟩ := by decide +kernel
  have hsteps : ∀ s ∈ [set "b", set "c"], 0 ≤ s.now := by decide
  have hclock : 0 ≤ (⟨5, 5⟩ : Clock).wall := by decide
  have hscan : Scans "main" "*" 0 node 0 visits :=
    .next hsteps hclock (Instance.scan_reply hfirst 5) (by decide)
      (.last (by decide) (by decide) (Instance.scan_reply hsecond 5))
  have hoffered : ∀ v ∈ visits, v.Offers "main" "*" "c" := by decide +kernel
  have hkept : visits.IsChain (Visit.Keeps "main" "*") := by
    rw [List.isChain_pair]
    rintro key hkey ⟨last, hlast, hle⟩
    have dependable := Dependable.of_reliable Table.reliable
    have hopen : node.engine.Open Eq 0 :=
      ⟨Table.empty, .fresh rfl Table.named_empty (fun region key entry h =>
        .inl (hexpired region key entry h)) _ _⟩
    have hall : (first.engine.scan 5 "main" 0 "*" 10).1 = ⟨0, ["b", "c"]⟩ := by decide +kernel
    have hkey : key ∈ ["b", "c"] :=
      (offers_iff dependable (open_serve dependable (by decide) hopen) (by decide)
        (Instance.scan_reply hall 5) _ key).mp hkey
    obtain rfl := List.mem_singleton.mp hlast
    obtain rfl | rfl : key = "b" ∨ key = "c" := by simpa using hkey
    · decide +kernel
    · exact absurd hle (by decide)
  exact ⟨rfl, Table.named_empty, ⟨rfl, hexpired⟩, hscan, hoffered, hkept,
    scan_returns Table.reliable rfl Table.named_empty 8 "main" (.inl ⟨rfl, hexpired⟩) hscan hoffered
      hkept⟩

/-- A key that the scan has passed is deleted between two pages; a key that is there all the time is
missed. -/
theorem scan_misses :
    let node := Instance.start (.fresh Table.empty 8 "main") (.standalone "one") true true ⟨0, 0⟩
    let set (key : String) : Instance.Step := .command ⟨5, 5⟩ ["SET", key, "v"]
    let first := node.serve [set "a", set "b", set "c"]
    let second := (first.perform ⟨5, 5⟩ "main" (.scan 0 "*" 1)).2.serve [.command ⟨5, 5⟩ ["DEL", "a"]]
    let visits : List (Visit Table) := [⟨first, 5, ["a"]⟩, ⟨second, 5, ["c"]⟩]
    Scans "main" "*" 0 node 0 visits ∧ (∀ v ∈ visits, v.Offers "main" "*" "b") ∧
      ¬∃ v ∈ visits, "b" ∈ v.keys := by
  intro node set first second visits
  have hfirst : (first.engine.scan 5 "main" 0 "*" 1).1 = ⟨1, ["a"]⟩ := by decide +kernel
  have hsecond : (second.engine.scan 5 "main" 1 "*" 10).1 = ⟨0, ["c"]⟩ := by decide +kernel
  have hsteps : ∀ s ∈ [set "a", set "b", set "c"], 0 ≤ s.now := by decide
  have hclock : 0 ≤ (⟨5, 5⟩ : Clock).wall := by decide
  have hscan : Scans "main" "*" 0 node 0 visits :=
    .next hsteps hclock (Instance.scan_reply hfirst 5) (by decide)
      (.last (by decide) (by decide) (Instance.scan_reply hsecond 5))
  exact ⟨hscan, by decide +kernel, by decide⟩

end TierCache
