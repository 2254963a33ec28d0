import Mathlib.Logic.Function.Basic
import TierCache.Proofs.Replication.Failover
import TierCache.Replication.Member

/-!
The members of a cluster and the heartbeats between them, every member hearing every heartbeat in the
order of publication. As long as the heartbeats keep coming there is one primary at most.

* `Orderly` is what holds at every moment: who was heard when, what is still to be heard, and why no
  secondary can take a second place.
* `Orderly.promote` is the one way to become primary; what each check has to show for it is that no
  one else is.
-/
namespace TierCache.Replication

/-- What the members of a cluster share, and what tells them apart. -/
structure Cohort (ι : Type) where
  settings : ι → Settings
  /-- When all of them start. -/
  start : Nat
  timeout : Nat
  enabled : ∀ i, (settings i).enabled = true
  secondary : ∀ i, (settings i).startAsPrimary = false
  common : ∀ i, (settings i).failoverTimeout = timeout
  distinct : ∀ {i j}, (settings i).instanceId = (settings j).instanceId → i = j
  inRange : start ≤ Text.maxUnsigned

namespace Cohort

variable {ι : Type} (c : Cohort ι)

def id (i : ι) : String := (c.settings i).instanceId

theorem startsPrimary (i : ι) : (c.settings i).startsPrimary = false := by
  simp [Settings.startsPrimary, c.enabled, c.secondary]

end Cohort

structure Electorate (ι : Type) where
  now : Nat
  member : ι → Member
  /-- The heartbeats that each member has still to hear, the oldest first. -/
  queue : ι → List Heartbeat
  /-- When each member last published a heartbeat. -/
  lastBeat : ι → Option Nat

namespace Electorate

variable {ι : Type} [DecidableEq ι]

/-- All members join at the common start. -/
def join (c : Cohort ι) : Electorate ι :=
  ⟨c.start, fun i => .join (c.settings i) c.start, fun _ => [], fun _ => none⟩

/-- Everything that was published has been heard. -/
def Quiet (e : Electorate ι) : Prop := ∀ j, e.queue j = []

/-- A member is what a decision made of it, and the heartbeat that came with it is on its way to
everyone. -/
def put (e : Electorate ι) (i : ι) (decision : Option Heartbeat × Member) : Electorate ι :=
  { e with
    member := Function.update e.member i decision.2
    queue := fun j => e.queue j ++ decision.1.toList
    lastBeat := if decision.1.isSome then Function.update e.lastBeat i (some e.now)
      else e.lastBeat }

/-- A member takes note of the first heartbeat that waits for it. -/
def note (e : Electorate ι) (j : ι) (h : Heartbeat) (rest : List Heartbeat) : Electorate ι :=
  { e with
    member := Function.update e.member j
      { e.member j with failover := (e.member j).failover.observe h e.now }
    queue := Function.update e.queue j rest }

/-- A member acts, or time passes, when all is heard; until then the heartbeats are delivered. Time
never comes to where a heartbeat, or for lack of one the start, is older than the timeout. -/
inductive Step (c : Cohort ι) : Electorate ι → Electorate ι → Prop
  | beat (e : Electorate ι) (i : ι) (quiet : e.Quiet) :
      Step c e (e.put i (some ((e.member i).heartbeat e.now), e.member i))
  | checkFailover (e : Electorate ι) (i : ι) (quiet : e.Quiet) :
      Step c e (e.put i ((e.member i).checkFailover e.now e.now))
  | checkStartup (e : Electorate ι) (i : ι) (quiet : e.Quiet) :
      Step c e (e.put i ((e.member i).checkStartup e.now e.now))
  | forget (e : Electorate ι) (i : ι) (quiet : e.Quiet) :
      Step c e (e.put i (none, (e.member i).forget e.now))
  | hear (e : Electorate ι) (j : ι) (h : Heartbeat) (rest : List Heartbeat)
      (first : e.queue j = h :: rest) :
      Step c e (({ e with queue := Function.update e.queue j rest }).put j
        ((e.member j).hear h e.now))
  | advance (e : Electorate ι) (later : Nat) (quiet : e.Quiet) (forward : e.now ≤ later)
      (inRange : later ≤ Text.maxUnsigned)
      (alive : ∀ i, later - (e.lastBeat i).getD c.start ≤ c.timeout) :
      Step c e { e with now := later }

inductive Reachable (c : Cohort ι) : Electorate ι → Prop
  | join : Reachable c (.join c)
  | step {e e' : Electorate ι} : Reachable c e → Step c e e' → Reachable c e'

/-! ### The invariant -/

/-- Members keep what they started with. -/
structure Settled (c : Cohort ι) (e : Electorate ι) : Prop where
  settings : ∀ i, (e.member i).settings = c.settings i
  instanceId : ∀ i, (e.member i).failover.instanceId = c.id i
  failoverTimeout : ∀ i, (e.member i).failover.failoverTimeout = c.timeout
  startedAt : ∀ i, (e.member i).failover.startedAt = c.start
  inRange : e.now ≤ Text.maxUnsigned

/-- Why a member that is still secondary will not take over from the primary `p`: it has heard of
one, or it is too early, or it would lose the election. -/
def Yields (c : Cohort ι) (e : Electorate ι) (p j : ι) : Prop :=
  (e.member j).failover.lastPrimaryBeat ≠ none ∨ e.now ≤ c.start + c.timeout ∨
    ∀ i, c.id p ≤ c.id i

structure Orderly (c : Cohort ι) (e : Electorate ι) : Prop extends Settled c e where
  /-- No member was silent for longer than the timeout. -/
  alive : ∀ i, e.now ≤ (e.lastBeat i).getD c.start + c.timeout
  /-- After the first timeout everyone has heard everyone within the timeout. -/
  heard : ∀ i j, e.now ≤ c.start + c.timeout ∨
    ∃ seen, (e.member j).failover.peers[c.id i]? = some seen ∧ e.now ≤ seen + c.timeout
  /-- What is still to be heard was published at this moment, and as primary only by one. -/
  onTheWay : ∀ j, ∀ h ∈ e.queue j, ∃ i, h.instanceId = c.id i ∧ e.lastBeat i = some e.now ∧
    (h.isPrimary = true → (e.member i).isPrimary = true)
  /-- The last heartbeat of a member is still to be heard or was taken note of. -/
  noted : ∀ i j t, e.lastBeat i = some t →
    (∃ h ∈ e.queue j, h.instanceId = c.id i) ∨ (e.member j).failover.peers[c.id i]? = some t
  /-- A primary has published a heartbeat, and its last one is still to be heard as such or was
  taken note of as such. -/
  announced : ∀ p, (e.member p).isPrimary = true → ∃ t, e.lastBeat p = some t ∧
    ∀ j, (∃ h ∈ e.queue j, h.isPrimary = true) ∨
      (e.member j).failover.lastPrimaryBeat = some t
  recent : ∀ j t, (e.member j).failover.lastPrimaryBeat = some t → e.now ≤ t + c.timeout
  /-- Who was heard as primary is primary. -/
  led : ∀ j, (e.member j).failover.lastPrimaryBeat ≠ none → ∃ p, (e.member p).isPrimary = true
  unique : ∀ p q, (e.member p).isPrimary = true → (e.member q).isPrimary = true → p = q
  /-- The others yield to the primary, at the latest once they hear what comes next. -/
  guarded : ∀ p j, (e.member p).isPrimary = true → Yields c e p j ∨
    ∃ h rest, e.queue j = h :: rest ∧ h.isPrimary = true

omit [DecidableEq ι] in
theorem Orderly.join (c : Cohort ι) : Orderly c (.join c) where
  settings i := rfl
  instanceId i := rfl
  failoverTimeout i := c.common i
  startedAt i := rfl
  inRange := c.inRange
  alive i := Nat.le_add_right _ _
  heard i j := .inl (Nat.le_add_right _ _)
  onTheWay j h hh := absurd hh List.not_mem_nil
  noted i j t ht := nomatch ht
  announced p hp := absurd hp (by simp [Electorate.join, Member.join, c.startsPrimary])
  recent j t ht := nomatch ht
  led j hj := absurd rfl hj
  unique p q hp := absurd hp (by simp [Electorate.join, Member.join, c.startsPrimary])
  guarded p j hp := absurd hp (by simp [Electorate.join, Member.join, c.startsPrimary])

/-! ### Steps -/

variable {c : Cohort ι} {e : Electorate ι}

/-- A decision to stay as it is. -/
theorem put_none (e : Electorate ι) (i : ι) : e.put i (none, e.member i) = e := by
  simp [put]

theorem note_isPrimary (e : Electorate ι) (j k : ι) (h : Heartbeat) (rest : List Heartbeat) :
    ((e.note j h rest).member k).isPrimary = (e.member k).isPrimary := by
  by_cases hk : k = j
  · subst hk
    simp [note]
  · simp [note, hk]

namespace Orderly

theorem beat (ho : Orderly c e) (quiet : e.Quiet) (i : ι) :
    Orderly c (e.put i (some ((e.member i).heartbeat e.now), e.member i)) := by
  have hput : e.put i (some ((e.member i).heartbeat e.now), e.member i) =
      { e with
        queue := fun _ => [(e.member i).heartbeat e.now]
        lastBeat := Function.update e.lastBeat i (some e.now) } := by
    simp [put, quiet _]
  rw [hput]
  have hname : ((e.member i).heartbeat e.now).instanceId = c.id i := by
    simp [Member.heartbeat, ho.settings, Cohort.id]
  refine { ho.toSettled with
    alive := ?_, heard := ho.heard, onTheWay := ?_, noted := ?_, announced := ?_,
    recent := ho.recent, led := ho.led, unique := ho.unique, guarded := ?_ }
  · intro k
    by_cases hk : k = i
    · subst hk
      simp
    · simpa [hk] using ho.alive k
  · intro j h hh
    obtain rfl := List.mem_singleton.1 hh
    exact ⟨i, hname, by simp, id⟩
  · intro k j t ht
    by_cases hk : k = i
    · subst hk
      exact .inl ⟨_, List.mem_singleton_self _, hname⟩
    · obtain ⟨h, hh, -⟩ | hpeer := ho.noted k j t (by simpa [hk] using ht)
      · simp [quiet j] at hh
      · exact .inr hpeer
  · intro p hp
    obtain ⟨t, ht, hall⟩ := ho.announced p hp
    by_cases hpi : p = i
    · subst hpi
      exact ⟨e.now, by simp, fun j => .inl ⟨_, List.mem_singleton_self _, hp⟩⟩
    · refine ⟨t, by simpa [hpi] using ht, fun j => .inr ?_⟩
      obtain ⟨h, hh, -⟩ | hlast := hall j
      · simp [quiet j] at hh
      · exact hlast
  · intro p j hp
    obtain hyields | ⟨h, rest, hfirst, -⟩ := ho.guarded p j hp
    · exact .inl hyields
    · simp [quiet j] at hfirst

/-- A member may become primary when no one is, if no other heartbeat is on its way before its own or
it would win every election. -/
theorem promote (ho : Orderly c e) (i : ι) (hnone : ∀ p, (e.member p).isPrimary = false)
    (hfirst : e.Quiet ∨ ∀ k, c.id i ≤ c.id k) :
    Orderly c (e.put i ((e.member i).promote e.now e.now)) := by
  have hunheard (j : ι) : (e.member j).failover.lastPrimaryBeat = none := by
    by_contra hj
    obtain ⟨p, hp⟩ := ho.led j hj
    simp [hnone p] at hp
  obtain ⟨m, hm, hput⟩ : ∃ m : Member, m = { e.member i with
        isPrimary := true, failover := (e.member i).failover.promoted e.now } ∧
      e.put i ((e.member i).promote e.now e.now) =
        { e with
          member := Function.update e.member i m
          queue := fun j => e.queue j ++ [m.heartbeat e.now]
          lastBeat := Function.update e.lastBeat i (some e.now) } := by
    refine ⟨_, rfl, ?_⟩
    simp [put, Member.promote, hnone i]
  have hname : (m.heartbeat e.now).instanceId = c.id i := by
    simp [hm, Member.heartbeat, ho.settings, Cohort.id]
  -- the new primary differs in its role and in when it knows of a primary
  have hkeeps (k : ι) : (Function.update e.member i m k).settings = (e.member k).settings ∧
      (Function.update e.member i m k).failover.instanceId = (e.member k).failover.instanceId ∧
      (Function.update e.member i m k).failover.failoverTimeout =
        (e.member k).failover.failoverTimeout ∧
      (Function.update e.member i m k).failover.startedAt = (e.member k).failover.startedAt ∧
      (Function.update e.member i m k).failover.peers = (e.member k).failover.peers := by
    by_cases hk : k = i
    · subst hk
      simp [hm, Failover.promoted]
    · simp [hk]
  have hprimary (k : ι) : (Function.update e.member i m k).isPrimary = true ↔ k = i := by
    by_cases hk : k = i
    · subst hk
      simp [hm]
    · simp [hk, hnone k]
  rw [hput]
  refine {
    settings := fun k => (hkeeps k).1.trans (ho.settings k)
    instanceId := fun k => (hkeeps k).2.1.trans (ho.instanceId k)
    failoverTimeout := fun k => (hkeeps k).2.2.1.trans (ho.failoverTimeout k)
    startedAt := fun k => (hkeeps k).2.2.2.1.trans (ho.startedAt k)
    inRange := ho.inRange
    alive := ?_, heard := ?_, onTheWay := ?_, noted := ?_, announced := ?_,
    recent := ?_, led := ?_, unique := ?_, guarded := ?_ }
  · intro k
    by_cases hk : k = i
    · subst hk
      simp
    · simpa [hk] using ho.alive k
  · intro k j
    rw [(hkeeps j).2.2.2.2]
    exact ho.heard k j
  · intro j h hh
    obtain hh | hh := List.mem_append.1 hh
    · obtain ⟨k, hk, hbeat, hrole⟩ := ho.onTheWay j h hh
      refine ⟨k, hk, ?_, fun hp => absurd (hrole hp) (by simp [hnone k])⟩
      by_cases hki : k = i
      · simp [hki]
      · simpa [hki] using hbeat
    · obtain rfl := List.mem_singleton.1 hh
      exact ⟨i, hname, by simp, fun _ => (hprimary i).2 rfl⟩
  · intro k j t ht
    dsimp only
    rw [(hkeeps j).2.2.2.2]
    by_cases hk : k = i
    · subst hk
      exact .inl ⟨_, List.mem_append_right _ (List.mem_singleton_self _), hname⟩
    · obtain ⟨h, hh, hid⟩ | hpeer := ho.noted k j t (by simpa [hk] using ht)
      · exact .inl ⟨h, List.mem_append_left _ hh, hid⟩
      · exact .inr hpeer
  · intro p hp
    obtain rfl := (hprimary p).1 hp
    refine ⟨e.now, by simp, fun j => .inl ⟨_, List.mem_append_right _ (List.mem_singleton_self _), ?_⟩⟩
    simp [hm, Member.heartbeat]
  · intro j t ht
    by_cases hj : j = i
    · subst hj
      simp only [Function.update_self, hm, Failover.promoted, Option.some.injEq] at ht
      dsimp only
      omega
    · simp [hj, hunheard j] at ht
  · intro j _
    exact ⟨i, (hprimary i).2 rfl⟩
  · intro p q hp hq
    rw [(hprimary p).1 hp, (hprimary q).1 hq]
  · intro p j hp
    obtain rfl := (hprimary p).1 hp
    obtain quiet | hleast := hfirst
    · refine .inr ⟨m.heartbeat e.now, [], ?_, ?_⟩
      · simp [quiet j]
      · simp [hm, Member.heartbeat]
    · exact .inl (.inr (.inr hleast))

omit [DecidableEq ι] in
/-- When all is heard, a primary has been heard by everyone. -/
theorem lastPrimaryBeat_of_quiet (ho : Orderly c e) (quiet : e.Quiet) {p : ι}
    (hp : (e.member p).isPrimary = true) (j : ι) :
    ∃ t, e.lastBeat p = some t ∧ (e.member j).failover.lastPrimaryBeat = some t := by
  obtain ⟨t, ht, hall⟩ := ho.announced p hp
  obtain ⟨h, hh, -⟩ | hlast := hall j
  · simp [quiet j] at hh
  · exact ⟨t, ht, hlast⟩

/-- Taking note of a heartbeat loses nothing, and whoever just did yields to the primary. -/
theorem note (ho : Orderly c e) {j : ι} {h : Heartbeat} {rest : List Heartbeat}
    (hfirst : e.queue j = h :: rest) :
    Orderly c (e.note j h rest) ∧
      ∀ p, (e.member p).isPrimary = true → Yields c (e.note j h rest) p j := by
  obtain ⟨sender, hsender, hbeat, hrole⟩ := ho.onTheWay j h (by simp [hfirst])
  have hmember (k : ι) : (e.note j h rest).member k =
      if k = j then { e.member k with failover := (e.member k).failover.observe h e.now }
      else e.member k := by
    by_cases hk : k = j
    · subst hk
      simp [Electorate.note]
    · simp [Electorate.note, hk]
  have hlast (k : ι) : ((e.note j h rest).member k).failover.lastPrimaryBeat =
      if k = j ∧ h.isPrimary then some e.now else (e.member k).failover.lastPrimaryBeat := by
    rw [hmember]
    by_cases hk : k = j <;> simp [hk]
  have hpeers (k : ι) (name : String) : ((e.note j h rest).member k).failover.peers[name]? =
      if k = j ∧ h.instanceId = name then some e.now else (e.member k).failover.peers[name]? := by
    rw [hmember]
    by_cases hk : k = j <;> simp [hk, Failover.observe_peers]
  have hisPrimary (k : ι) := note_isPrimary e j k h rest
  have hkept {k : ι} {h' : Heartbeat} (hh' : h' ∈ e.queue k) :
      (k = j ∧ h' = h) ∨ h' ∈ (e.note j h rest).queue k := by
    by_cases hk : k = j
    · subst hk
      simpa [hfirst, Electorate.note] using hh'
    · simpa [hk, Electorate.note] using hh'
  have hold {k : ι} {h' : Heartbeat} (hh' : h' ∈ (e.note j h rest).queue k) : h' ∈ e.queue k := by
    by_cases hk : k = j
    · subst hk
      rw [hfirst]
      exact List.mem_cons_of_mem _ (by simpa [Electorate.note] using hh')
    · simpa [Electorate.note, hk] using hh'
  have hyields (p k : ι) (h' : Yields c e p k) : Yields c (e.note j h rest) p k := by
    refine h'.imp_left fun hheard => ?_
    rw [hlast]
    split
    · simp
    · exact hheard
  have hguard (p : ι) (hp : (e.member p).isPrimary = true) : Yields c (e.note j h rest) p j := by
    obtain hbefore | ⟨h', rest', hnext, hannounces⟩ := ho.guarded p j hp
    · exact hyields p j hbefore
    · rw [hfirst] at hnext
      obtain ⟨rfl, -⟩ := List.cons.inj hnext
      exact .inl (by simp [hlast, hannounces])
  refine ⟨{
    settings := fun k => by rw [hmember]; split <;> exact ho.settings k
    instanceId := fun k => by rw [hmember]; split <;> simp [ho.instanceId k]
    failoverTimeout := fun k => by rw [hmember]; split <;> simp [ho.failoverTimeout k]
    startedAt := fun k => by rw [hmember]; split <;> simp [ho.startedAt k]
    inRange := ho.inRange
    alive := ho.alive
    heard := ?_, onTheWay := ?_, noted := ?_, announced := ?_,
    recent := ?_, led := ?_, unique := ?_, guarded := ?_ }, hguard⟩
  · intro i k
    rw [hpeers]
    split
    · exact .inr ⟨e.now, rfl, Nat.le_add_right _ _⟩
    · exact ho.heard i k
  · intro k h' hh'
    obtain ⟨i, hname, hbeat', hrole'⟩ := ho.onTheWay k h' (hold hh')
    exact ⟨i, hname, hbeat', fun hp => (hisPrimary i).trans (hrole' hp)⟩
  · intro i k t ht
    rw [hpeers]
    by_cases hjust : k = j ∧ h.instanceId = c.id i
    · obtain rfl := c.distinct (hsender.symm.trans hjust.2)
      rw [if_pos hjust]
      exact .inr (hbeat.symm.trans ht)
    · rw [if_neg hjust]
      obtain ⟨h', hh', hid⟩ | hpeer := ho.noted i k t ht
      · obtain ⟨rfl, rfl⟩ | hh' := hkept hh'
        · exact absurd ⟨rfl, hid⟩ hjust
        · exact .inl ⟨h', hh', hid⟩
      · exact .inr hpeer
  · intro p hp
    rw [hisPrimary] at hp
    obtain ⟨t, ht, hall⟩ := ho.announced p hp
    refine ⟨t, ht, fun k => ?_⟩
    rw [hlast]
    by_cases hjust : k = j ∧ h.isPrimary = true
    · obtain rfl := ho.unique sender p (hrole hjust.2) hp
      rw [if_pos hjust]
      exact .inr (hbeat.symm.trans ht)
    · rw [if_neg hjust]
      obtain ⟨h', hh', hannounces⟩ | hheard := hall k
      · obtain ⟨rfl, rfl⟩ | hh' := hkept hh'
        · exact absurd ⟨rfl, hannounces⟩ hjust
        · exact .inl ⟨h', hh', hannounces⟩
      · exact .inr hheard
  · intro k t ht
    rw [hlast] at ht
    split at ht
    · obtain rfl := Option.some.inj ht
      exact Nat.le_add_right _ _
    · exact ho.recent k t ht
  · intro k hk
    rw [hlast] at hk
    simp only [hisPrimary]
    split at hk
    · rename_i hjust
      exact ⟨sender, hrole hjust.2⟩
    · exact ho.led k hk
  · intro p q hp hq
    rw [hisPrimary] at hp hq
    exact ho.unique p q hp hq
  · intro p k hp
    rw [hisPrimary] at hp
    by_cases hk : k = j
    · subst hk
      exact .inl (hguard p hp)
    · obtain hbefore | hnext := ho.guarded p k hp
      · exact .inl (hyields p k hbefore)
      · exact .inr (by simpa [Electorate.note, hk] using hnext)

/-- A look after the primary makes a member primary only if no one else is. -/
theorem checkFailover (ho : Orderly c e) (i : ι)
    (hyields : ∀ p, (e.member p).isPrimary = true → Yields c e p i) :
    Orderly c (e.put i ((e.member i).checkFailover e.now e.now)) := by
  unfold Member.checkFailover
  split
  · rename_i hcheck
    simp only [Bool.and_eq_true, Bool.not_eq_true'] at hcheck
    obtain ⟨⟨hsecondary, hsilent⟩, hwins⟩ := hcheck
    obtain ⟨hunheard, hlate⟩ := Failover.silent_of_shouldFailover hsilent
      (by simpa [ho.failoverTimeout] using ho.recent i)
    rw [ho.startedAt, ho.failoverTimeout] at hlate
    have hleast (k : ι) : c.id i ≤ c.id k := by
      obtain hearly | ⟨seen, hpeer, hlive⟩ := ho.heard k i
      · omega
      · rw [← ho.instanceId i]
        exact Failover.le_of_winsElection hwins hpeer (by rwa [ho.failoverTimeout])
    refine ho.promote i (fun p => ?_) (.inr hleast)
    by_contra hp
    rw [Bool.not_eq_false] at hp
    obtain hheard | hearly | hless := hyields p hp
    · exact hheard hunheard
    · omega
    · obtain rfl := c.distinct (le_antisymm (hless i) (hleast p))
      simp [hsecondary] at hp
  · rwa [put_none]

/-- The check after the start makes a member primary only if no one else is. -/
theorem checkStartup (ho : Orderly c e) (quiet : e.Quiet) (i : ι) :
    Orderly c (e.put i ((e.member i).checkStartup e.now e.now)) := by
  unfold Member.checkStartup
  split
  · rename_i hcheck
    simp only [Bool.and_eq_true] at hcheck
    have hunheard := Failover.silent_of_startupCheck hcheck.2
      (by simpa [ho.failoverTimeout] using ho.recent i)
    refine ho.promote i (fun p => ?_) (.inl quiet)
    by_contra hp
    rw [Bool.not_eq_false] at hp
    obtain ⟨t, -, hheard⟩ := ho.lastPrimaryBeat_of_quiet quiet hp i
    simp [hunheard] at hheard
  · rwa [put_none]

/-- Who is heard of within the timeout is not forgotten. -/
theorem forget (ho : Orderly c e) (quiet : e.Quiet) (i : ι) :
    Orderly c (e.put i (none, (e.member i).forget e.now)) := by
  obtain ⟨m, hm, hput⟩ : ∃ m : Member, m = (e.member i).forget e.now ∧
      e.put i (none, (e.member i).forget e.now) =
        { e with member := Function.update e.member i m } := ⟨_, rfl, by simp [put]⟩
  have hkeeps (k : ι) : (Function.update e.member i m k).settings = (e.member k).settings ∧
      (Function.update e.member i m k).isPrimary = (e.member k).isPrimary ∧
      ∃ peers, (Function.update e.member i m k).failover =
        { (e.member k).failover with peers } := by
    by_cases hk : k = i
    · subst hk
      simp [hm, Member.forget, Failover.prune]
    · rw [Function.update_of_ne hk]
      exact ⟨rfl, rfl, _, rfl⟩
  have hpeers (k : ι) {name : String} {seen : Nat}
      (hpeer : (e.member k).failover.peers[name]? = some seen) (hlive : e.now ≤ seen + c.timeout) :
      (Function.update e.member i m k).failover.peers[name]? = some seen := by
    by_cases hk : k = i
    · subst hk
      rw [Function.update_self, hm]
      exact Failover.prune_peers hpeer (by rwa [ho.failoverTimeout]) ho.inRange
    · rwa [Function.update_of_ne hk]
  have hlast (k : ι) : (Function.update e.member i m k).failover.lastPrimaryBeat =
      (e.member k).failover.lastPrimaryBeat := by
    obtain ⟨-, -, peers, hfailover⟩ := hkeeps k
    rw [hfailover]
  rw [hput]
  refine {
    settings := fun k => (hkeeps k).1.trans (ho.settings k)
    instanceId := fun k => by obtain ⟨-, -, _, hf⟩ := hkeeps k; exact hf ▸ ho.instanceId k
    failoverTimeout := fun k => by
      obtain ⟨-, -, _, hf⟩ := hkeeps k; exact hf ▸ ho.failoverTimeout k
    startedAt := fun k => by obtain ⟨-, -, _, hf⟩ := hkeeps k; exact hf ▸ ho.startedAt k
    inRange := ho.inRange
    alive := ho.alive
    heard := ?_, onTheWay := ?_, noted := ?_, announced := ?_,
    recent := ?_, led := ?_, unique := ?_, guarded := ?_ }
  · intro k j
    obtain hearly | ⟨seen, hpeer, hlive⟩ := ho.heard k j
    · exact .inl hearly
    · exact .inr ⟨seen, hpeers j hpeer hlive, hlive⟩
  · intro j h hh
    simp [quiet j] at hh
  · intro k j t ht
    obtain hh | hpeer := ho.noted k j t ht
    · exact .inl hh
    · have hlive := ho.alive k
      rw [ht] at hlive
      exact .inr (hpeers j hpeer hlive)
  · intro p hp
    rw [(hkeeps p).2.1] at hp
    obtain ⟨t, ht, hall⟩ := ho.announced p hp
    exact ⟨t, ht, fun j => (hall j).imp_right (hlast j).trans⟩
  · intro j t ht
    exact ho.recent j t ((hlast j).symm.trans ht)
  · intro j hj
    obtain ⟨p, hp⟩ := ho.led j fun hnone => hj ((hlast j).trans hnone)
    exact ⟨p, (hkeeps p).2.1.trans hp⟩
  · intro p q hp hq
    rw [(hkeeps p).2.1] at hp
    rw [(hkeeps q).2.1] at hq
    exact ho.unique p q hp hq
  · intro p j hp
    rw [(hkeeps p).2.1] at hp
    refine (ho.guarded p j hp).imp_left fun hyields => hyields.imp_left fun hheard => ?_
    rwa [hlast]

omit [DecidableEq ι] in
/-- Time goes on while everyone's last heartbeat, heard by all, is recent enough. -/
theorem advance (ho : Orderly c e) {later : Nat} (quiet : e.Quiet)
    (inRange : later ≤ Text.maxUnsigned)
    (alive : ∀ i, later - (e.lastBeat i).getD c.start ≤ c.timeout) :
    Orderly c { e with now := later } := by
  have hpeer {i : ι} {t : Nat} (ht : e.lastBeat i = some t) (j : ι) :
      (e.member j).failover.peers[c.id i]? = some t := by
    obtain ⟨h, hh, -⟩ | hpeer := ho.noted i j t ht
    · simp [quiet j] at hh
    · exact hpeer
  have hrecent {i : ι} {t : Nat} (ht : e.lastBeat i = some t) : later ≤ t + c.timeout := by
    have := alive i
    rw [ht, Option.getD_some] at this
    omega
  refine { ho with inRange, alive := ?_, heard := ?_, onTheWay := ?_, recent := ?_, guarded := ?_ }
  · intro i
    have := alive i
    dsimp only
    omega
  · intro i j
    cases ht : e.lastBeat i with
    | none =>
      have := alive i
      rw [ht, Option.getD_none] at this
      dsimp only
      omega
    | some t => exact .inr ⟨t, hpeer ht j, hrecent ht⟩
  · intro j h hh
    simp [quiet j] at hh
  · intro j t hlast
    change (e.member j).failover.lastPrimaryBeat = some t at hlast
    obtain ⟨p, hp⟩ := ho.led j (by simp [hlast])
    obtain ⟨t', ht', hheard⟩ := ho.lastPrimaryBeat_of_quiet quiet hp j
    obtain rfl := Option.some.inj (hlast.symm.trans hheard)
    exact hrecent ht'
  · intro p j hp
    obtain ⟨t, -, hheard⟩ := ho.lastPrimaryBeat_of_quiet quiet hp j
    exact .inl (.inl (by simp [hheard]))

theorem step (ho : Orderly c e) {e' : Electorate ι} (h : Step c e e') : Orderly c e' := by
  cases h with
  | beat i quiet => exact ho.beat quiet i
  | checkFailover i quiet =>
    refine ho.checkFailover i fun p hp => .inl ?_
    obtain ⟨t, -, hheard⟩ := ho.lastPrimaryBeat_of_quiet quiet hp i
    simp [hheard]
  | checkStartup i quiet => exact ho.checkStartup quiet i
  | forget i quiet => exact ho.forget quiet i
  | hear j h rest first =>
    obtain ⟨hnoted, hyields⟩ := ho.note first
    have hcheck := hnoted.checkFailover j fun p hp => hyields p (by rwa [note_isPrimary] at hp)
    have heq : ({ e with queue := Function.update e.queue j rest }).put j
        ((e.member j).hear h e.now) = (e.note j h rest).put j
          (((e.note j h rest).member j).checkFailover e.now e.now) := by
      simp [put, Electorate.note, Member.hear]
      rfl
    rw [heq]
    exact hcheck
  | advance later quiet forward inRange alive => exact ho.advance quiet inRange alive

end Orderly

/-! A primary stays one. -/

theorem isPrimary_checkFailover {m : Member} (h : m.isPrimary = true) (now clock : Nat) :
    (m.checkFailover now clock).2.isPrimary = true := by
  simp [Member.checkFailover, h]

theorem isPrimary_checkStartup {m : Member} (h : m.isPrimary = true) (now clock : Nat) :
    (m.checkStartup now clock).2.isPrimary = true := by
  simp [Member.checkStartup, h]

theorem put_isPrimary {i p : ι} {decision : Option Heartbeat × Member}
    (hdecision : (e.member i).isPrimary = true → decision.2.isPrimary = true)
    (hp : (e.member p).isPrimary = true) : ((e.put i decision).member p).isPrimary = true := by
  by_cases hpi : p = i
  · subst hpi
    simpa [put] using hdecision hp
  · simpa [put, hpi] using hp

theorem Step.isPrimary {e' : Electorate ι} (h : Step c e e') {p : ι}
    (hp : (e.member p).isPrimary = true) : (e'.member p).isPrimary = true := by
  cases h with
  | beat i _ => exact put_isPrimary id hp
  | checkFailover i _ => exact put_isPrimary (fun hi => isPrimary_checkFailover hi _ _) hp
  | checkStartup i _ => exact put_isPrimary (fun hi => isPrimary_checkStartup hi _ _) hp
  | forget i _ => exact put_isPrimary id hp
  | hear j heartbeat rest _ =>
    exact put_isPrimary (fun hj => isPrimary_checkFailover (m := { e.member j with
      failover := (e.member j).failover.observe heartbeat e.now }) hj _ _) hp
  | advance later _ _ _ _ => exact hp

theorem Reachable.orderly (h : Reachable c e) : Orderly c e := by
  induction h with
  | join => exact Orderly.join c
  | step _ hstep ih => exact ih.step hstep

end Electorate
end TierCache.Replication
