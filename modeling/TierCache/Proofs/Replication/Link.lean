import Mathlib.Logic.Relation
import TierCache.Proofs.Replication.Relay

/-!
A primary and a secondary that follows it. Once every event was handed over, both show the same keys
with the same values and the same moments of expiry.
-/
namespace TierCache
open Replication

/-- What an instance starts with; its cache is empty. -/
structure Side (σ : Type) where
  settings : Settings
  store : σ
  capacity : Nat
  notifies : Bool
  publishes : Bool
  steady : Nat

def Side.start {σ : Type} (s : Side σ) (defaultRegion : String) (now : Nat) : Instance σ :=
  .start (.fresh s.store s.capacity defaultRegion) s.settings s.notifies s.publishes ⟨now, s.steady⟩

/-- The event lets a key expire. -/
def Posted.IsTimed (p : Posted) : Prop :=
  ∃ e, Event.ofPayload p.payload = .ok e ∧ e.kind = .expire

structure Link (σ τ : Type) where
  now : Nat
  primary : Instance σ
  secondary : Instance τ
  /-- The events that the secondary was not yet handed, the oldest first. -/
  waiting : List Posted

namespace Link

variable {σ τ : Type} [Store σ] [Store τ]

def start (defaultRegion : String) (now : Nat) (first : Side σ) (second : Side τ) : Link σ τ :=
  ⟨now, first.start defaultRegion now, second.start defaultRegion now, []⟩

/-- An operation on the primary. What it publishes waits for the secondary. -/
def act {α : Type} (l : Link σ τ) (op : Operation α) : Link σ τ :=
  let primary := (l.primary.run l.now (·.perform l.now op)).2
  { l with
    primary := { primary with outbox := [] }
    waiting := l.waiting ++ primary.posted l.now }

/-- An operation on the secondary. -/
def look {α : Type} (l : Link σ τ) (op : Operation α) : Link σ τ :=
  { l with secondary := (l.secondary.run l.now (·.perform l.now op)).2 }

/-- Any operation on the primary may follow any other, unless it sets an infinite score, of which no
event can tell; the secondary reads and sweeps, and is handed one event after another, whenever it may
be. Only an event that lets a key expire is handed over at the reading of the clock at which it was
published. The clock is never set back. -/
inductive Step : Link σ τ → Link σ τ → Prop
  | act {α : Type} (l : Link σ τ) (op : Operation α) (encodable : op.Encodable) :
      Step l (l.act op)
  | look {α : Type} (l : Link σ τ) (op : Operation α) (quiet : op.isQuiet = true) :
      Step l (l.look op)
  | deliver (l : Link σ τ) (first : Posted) (rest : List Posted)
      (next : l.waiting = first :: rest) (timely : first.IsTimed → first.reading = l.now) :
      Step l { l with secondary := l.secondary.follow l.now first.payload, waiting := rest }
  | advance (l : Link σ τ) (later : Nat) (forward : l.now ≤ later)
      (inRange : later ≤ Text.maxUnsigned) : Step l { l with now := later }

/-- A run of steps. -/
abbrev Run : Link σ τ → Link σ τ → Prop := Relation.ReflTransGen Step

/-- What an instance shows of a key: its value and its moment of expiry. -/
def shows {σ : Type} [Store σ] (i : Instance σ) (now : Nat) (region key : String) :
    Option (Value × Option Nat) :=
  (i.engine.getEntry now region key).1.map fun entry => (entry.value, entry.expiresAt)

/-! ### Both sides -/

/-- The primary, and the flat cache it answers for. -/
structure Leads (stands : σ → Table → Prop) (i : Instance σ) (f : Flat) : Prop where
  mirrors : Mirrors stands i.engine f
  told : f.told = []
  encodable : f.Encodable
  role : i.member.isPrimary = true
  publishes : i.publishes = true
  outbox : i.outbox = []

/-- The secondary, and the flat cache it answers for. It publishes nothing. -/
structure Trails (stands : τ → Table → Prop) (i : Instance τ) (g : Flat) : Prop where
  mirrors : Mirrors stands i.engine g
  told : g.told = []
  role : i.member.isPrimary = false
  outbox : i.outbox = []
  events : i.events = 0

omit [Store τ] in
theorem Trails.run {stands : τ → Table → Prop} {i : Instance τ} {g g' : Flat}
    (h : Trails stands i g) (now : Nat) {α : Type} (op : Engine τ → α × Engine τ)
    (hm : Mirrors stands (op i.engine).2 g') :
    Trails stands (i.run now op).2 { g' with told := [] } := by
  let i' : Instance τ := { i with engine := { (op i.engine).2 with signals := [] } }
  have hrun : (i.run now op).2 = (op i.engine).2.signals.foldl (Instance.relay now) i' := rfl
  have hrole : i'.member.isPrimary = false := h.role
  obtain ⟨hengine, hmember, -⟩ := @Instance.relay_foldl_keeps _ i' now (op i.engine).2.signals
  obtain ⟨houtbox, hevents⟩ := @Instance.relay_foldl_silent _ i' now hrole (op i.engine).2.signals
  rw [← hrun] at hengine hmember houtbox hevents
  refine ⟨?_, rfl, ?_, ?_, ?_⟩
  · rw [hengine]
    exact hm.relayed
  · rw [hmember]
    exact h.role
  · rw [houtbox]
    exact h.outbox
  · rw [hevents]
    exact h.events

theorem Leads.run {stands : σ → Table → Prop} (reliable : Reliable stands) {i : Instance σ}
    {f : Flat} (h : Leads stands i f) (now : Nat) {α : Type} {op : Operation α}
    (hop : op.Encodable) :
    ∃ (f' : Flat) (ps : List Posting),
      Leads stands { (i.run now (·.perform now op)).2 with outbox := [] } f' ∧
      (i.run now (·.perform now op)).2.posted now = ps.map Posting.posted ∧
      (∀ p ∈ ps, p.reading = now ∧ p.notice.Encodable) ∧
      Flat.Alike now (f.replay now (ps.map Posting.notice)) f' := by
  obtain ⟨-, hm⟩ := Mirrors.perform reliable now op h.mirrors
  obtain ⟨⟨ns, htold, hns, halike⟩, hencodable⟩ := @Flat.perform_told f now _ h.encodable op hop
  rw [h.told, List.nil_append] at htold
  have hsignals : ((i.engine.perform now op).2.signals.map Signal.notice) = ns := hm.told.trans htold
  let i' : Instance σ := { i with engine := { (i.engine.perform now op).2 with signals := [] } }
  have hrun : (i.run now (·.perform now op)).2 =
      (i.engine.perform now op).2.signals.foldl (Instance.relay now) i' := rfl
  obtain ⟨hengine, hmember, hpublishes⟩ :=
    @Instance.relay_foldl_keeps _ i' now (i.engine.perform now op).2.signals
  obtain ⟨ps, hreading, hmutations, hposted⟩ :=
    @Instance.relay_foldl_posted _ i' now h.publishes h.role (i.engine.perform now op).2.signals
  rw [← hrun] at hengine hmember hpublishes hposted
  refine ⟨{ (f.perform now op).2 with told := [] }, ps, ?_, ?_, ?_, ?_⟩
  · refine ⟨?_, rfl, hencodable, ?_, ?_, rfl⟩
    · exact hengine ▸ hm.relayed
    · exact (congrArg Member.isPrimary hmember).trans h.role
    · exact hpublishes.trans h.publishes
  · have hbefore : i'.posted now = [] := congrArg (List.map _) h.outbox
    rw [hposted, hbefore, List.nil_append]
  · intro p hp
    refine ⟨hreading p hp, hns _ ?_⟩
    have hmutation : p.mutation ∈ (i.engine.perform now op).2.signals.filterMap Signal.mutation? :=
      hmutations ▸ List.mem_map_of_mem hp
    obtain ⟨signal, hmem, hsignal⟩ := List.mem_filterMap.1 hmutation
    cases signal with
    | mutation m =>
      cases hsignal
      exact hsignals ▸ List.mem_map_of_mem hmem
    | change => cases hsignal
  · have hreplay : f.replay now ns = f.replay now (ps.map Posting.notice) := by
      rw [← hsignals, f.replay_mutations, ← hmutations, List.map_map]
      rfl
    rw [← hreplay]
    exact ⟨halike.seen, halike.defaultRegion⟩

/-! ### The link -/

variable {stands : σ → Table → Prop} {stands' : τ → Table → Prop}

/-- The secondary is behind the primary by the events that it was not yet handed: were it to follow
them now, it would look like the primary. Nothing is said once an event that lets a key expire was
left waiting until after its reading. -/
structure Follows (stands : σ → Table → Prop) (stands' : τ → Table → Prop) (l : Link σ τ)
    (f g : Flat) (ps : List Posting) : Prop where
  inRange : l.now ≤ Text.maxUnsigned
  primary : Leads stands l.primary f
  secondary : Trails stands' l.secondary g
  waiting : l.waiting = ps.map Posting.posted
  posted : ∀ p ∈ ps, p.reading ≤ l.now ∧ p.notice.Encodable
  alike : (∀ p ∈ ps, p.notice.isTimed = true → p.reading = l.now) →
    Flat.Alike l.now (g.replay l.now (ps.map Posting.notice)) f

namespace Follows

variable {l l' : Link σ τ} {f g : Flat} {ps : List Posting}

omit [Store τ] in
theorem act (reliable : Reliable stands) (h : Follows stands stands' l f g ps) {α : Type}
    {op : Operation α} (hop : op.Encodable) :
    ∃ f' ps', Follows stands stands' (l.act op) f' g ps' := by
  obtain ⟨f', new, hprimary, hposted, hnew, halike⟩ := h.primary.run reliable l.now hop
  refine ⟨f', ps ++ new, h.inRange, hprimary, h.secondary, ?_, ?_, ?_⟩
  · rw [List.map_append, ← h.waiting, ← hposted]
    rfl
  · intro p hp
    obtain hp | hp := List.mem_append.1 hp
    · exact h.posted p hp
    · exact ⟨(hnew p hp).1.le, (hnew p hp).2⟩
  · intro htimed
    have hbefore := h.alike fun p hp => htimed p (List.mem_append_left _ hp)
    rw [List.map_append, Flat.replay_append]
    exact (hbefore.replay fun _ _ _ => ⟨rfl, rfl⟩).trans halike

omit [Store σ] in
theorem look (reliable : Reliable stands') (h : Follows stands stands' l f g ps) {α : Type}
    {op : Operation α} (hop : op.isQuiet = true) :
    ∃ g', Follows stands stands' (l.look op) f g' ps := by
  have hm := (Mirrors.perform reliable l.now op h.secondary.mirrors).2
  obtain ⟨-, hquiet⟩ := @Flat.perform_quiet g l.now _ op hop
  have hsecondary : Trails stands' (l.look op).secondary { (g.perform l.now op).2 with told := [] } :=
    h.secondary.run l.now (·.perform l.now op) hm
  refine ⟨_, h.inRange, h.primary, hsecondary, h.waiting, h.posted, ?_⟩
  intro htimed
  have hsame : Flat.Alike l.now { (g.perform l.now op).2 with told := [] } g :=
    ⟨hquiet.symm.seen, hquiet.symm.defaultRegion⟩
  exact (hsame.replay fun _ _ _ => ⟨rfl, rfl⟩).trans (h.alike htimed)

omit [Store σ] in
theorem deliver (reliable : Reliable stands') (h : Follows stands stands' l f g ps) {first : Posted}
    {rest : List Posted} (next : l.waiting = first :: rest)
    (timely : first.IsTimed → first.reading = l.now) :
    ∃ g' ps', Follows stands stands'
      { l with secondary := l.secondary.follow l.now first.payload, waiting := rest } f g' ps' := by
  rw [h.waiting] at next
  obtain ⟨p, left, rfl, rfl, rfl⟩ := List.map_eq_cons_iff.1 next
  obtain ⟨⟨hreading, hencodable⟩, hleft⟩ := List.forall_mem_cons.1 h.posted
  have hrange := hreading.trans h.inRange
  have hm := Mirrors.performAll reliable (p.notice.calls l.now) h.secondary.mirrors
  have hfollow : l.secondary.follow l.now p.posted.payload = _ :=
    Instance.follow_payload h.secondary.role hencodable hrange p.id
  refine ⟨_, left, h.inRange, h.primary, hfollow ▸ h.secondary.run l.now _ hm, rfl, hleft, ?_⟩
  intro htimed
  have hfirst : p.notice.isTimed = true → p.reading = l.now := by
    intro hp
    apply timely
    refine ⟨_, Event.ofPayload_ofMutation hencodable hrange p.id, ?_⟩
    cases hmutation : p.mutation with
    | expire => rfl
    | _ =>
      rw [Posting.notice, hmutation] at hp
      cases hp
  have hbefore := h.alike (List.forall_mem_cons.2 ⟨hfirst, htimed⟩)
  have hsame : Flat.Alike l.now { g.performAll (p.notice.calls l.now) with told := [] }
      (g.replay l.now [p.notice]) := by
    have hone : g.replay l.now [p.notice] = g.performAll (p.notice.calls l.now) := by
      rw [Flat.replay, List.flatMap_cons, List.flatMap_nil, List.append_nil]
    rw [hone]
    exact ⟨fun _ _ => rfl, rfl⟩
  rw [List.map_cons, Flat.replay_cons] at hbefore
  exact (hsame.replay fun _ _ _ => ⟨rfl, rfl⟩).trans hbefore

omit [Store σ] [Store τ] in
theorem advance (h : Follows stands stands' l f g ps) {later : Nat} (forward : l.now ≤ later)
    (inRange : later ≤ Text.maxUnsigned) :
    Follows stands stands' { l with now := later } f g ps := by
  refine ⟨inRange, h.primary, h.secondary, h.waiting, ?_, ?_⟩
  · intro p hp
    exact ⟨(h.posted p hp).1.trans forward, (h.posted p hp).2⟩
  · intro htimed
    -- when time passed no event waits that lets a key expire, and all others say the same later
    obtain hsame | hpassed : l.now = later ∨ l.now < later := forward.eq_or_lt
    · subst hsame
      exact h.alike htimed
    · have huntimed : ∀ p ∈ ps, p.notice.isTimed = true → False := by
        intro p hp htime
        have hreading : p.reading = later := htimed p hp htime
        have := (h.posted p hp).1
        omega
      have hbefore := h.alike fun p hp htime => (huntimed p hp htime).elim
      have hlater : Flat.Alike later (g.replay later (ps.map Posting.notice))
          (g.replay l.now (ps.map Posting.notice)) := by
        apply (Flat.Alike.refl g).replay
        intro n hn htime
        obtain ⟨p, hp, rfl⟩ := List.mem_map.1 hn
        exact (huntimed p hp htime).elim
      exact hlater.trans (hbefore.later forward)

omit [Store σ] [Store τ] in
/-- The start: nothing was told, and both caches are empty. -/
theorem start {first : Side σ} {second : Side τ} (hempty : stands first.store .empty)
    (hempty' : stands' second.store .empty) (hrole : first.settings.startsPrimary = true)
    (hpublishes : first.publishes = true) (hrole' : second.settings.startsPrimary = false)
    (defaultRegion : String) {now : Nat} (hnow : now ≤ Text.maxUnsigned) :
    Follows stands stands' (.start defaultRegion now first second) (.empty defaultRegion)
      (.empty defaultRegion) [] :=
  ⟨hnow, ⟨.fresh hempty _ _, rfl, .empty _, hrole, hpublishes, rfl⟩,
    ⟨.fresh hempty' _ _, rfl, hrole', rfl, rfl⟩, rfl, nofun, fun _ => .refl _⟩

theorem step (reliable : Reliable stands) (reliable' : Reliable stands')
    (h : Follows stands stands' l f g ps) (hstep : Step l l') :
    ∃ f' g' ps', Follows stands stands' l' f' g' ps' := by
  cases hstep with
  | act _ op encodable =>
    obtain ⟨f', ps', h'⟩ := h.act reliable encodable
    exact ⟨f', g, ps', h'⟩
  | look _ op quiet =>
    obtain ⟨g', h'⟩ := h.look reliable' quiet
    exact ⟨f, g', ps, h'⟩
  | deliver _ first rest next timely =>
    obtain ⟨g', ps', h'⟩ := h.deliver reliable' next timely
    exact ⟨f, g', ps', h'⟩
  | advance _ later forward inRange => exact ⟨f, g, ps, h.advance forward inRange⟩

theorem run (reliable : Reliable stands) (reliable' : Reliable stands')
    (h : Follows stands stands' l f g ps) (hrun : Run l l') :
    ∃ f' g' ps', Follows stands stands' l' f' g' ps' := by
  induction hrun with
  | refl => exact ⟨f, g, ps, h⟩
  | tail _ hstep ih =>
    obtain ⟨f₁, g₁, ps₁, h₁⟩ := ih
    exact h₁.step reliable reliable' hstep

omit [Store σ] [Store τ] in
/-- When nothing is waiting both sides look alike. -/
theorem settled (h : Follows stands stands' l f g ps) (hwaiting : l.waiting = []) :
    Flat.Alike l.now g f := by
  have hnone : ps = [] := List.map_eq_nil_iff.1 (h.waiting.symm.trans hwaiting)
  subst hnone
  exact h.alike nofun

end Follows

/-- Both sides show the same keys, with the same values and the same moments of expiry. -/
structure Agree (l : Link σ τ) : Prop where
  keys (region pattern : String) : (l.primary.engine.keys l.now region pattern).1 =
    (l.secondary.engine.keys l.now region pattern).1
  entries (region key : String) :
    shows l.primary l.now region key = shows l.secondary l.now region key

/-- An instance shows what is seen in the flat cache that it answers for. -/
theorem shows_eq (reliable : Reliable stands) {i : Instance σ} {f : Flat}
    (h : Mirrors stands i.engine f) (now : Nat) (region key : String) :
    shows i now region key = f.seen now region key := by
  have hread := (Mirrors.perform reliable now (.read region key) h).1
  have hrow : (i.engine.getEntry now region key).1.map Entry.row = f.visible? now region key := hread
  rw [Flat.seen_eq, ← hrow, Option.map_map]
  rfl

theorem Follows.agree (reliable : Reliable stands) (reliable' : Reliable stands') {l : Link σ τ}
    {f g : Flat} {ps : List Posting} (h : Follows stands stands' l f g ps)
    (hwaiting : l.waiting = []) : l.Agree := by
  have halike := h.settled hwaiting
  have hm := h.primary.mirrors
  have hm' := h.secondary.mirrors
  constructor
  · intro region pattern
    have hkeys : (l.primary.engine.keys l.now region pattern).1 = f.keys l.now region pattern :=
      (Mirrors.perform reliable l.now (.keys region pattern) hm).1
    have hkeys' : (l.secondary.engine.keys l.now region pattern).1 = g.keys l.now region pattern :=
      (Mirrors.perform reliable' l.now (.keys region pattern) hm').1
    rw [hkeys, hkeys', halike.keys]
  · intro region key
    rw [shows_eq reliable hm, shows_eq reliable' hm', halike.seen]

/-- A secondary that is handed the events of a primary in order agrees with it whenever none is
waiting, whatever the capacities of both and whenever they sweep; and it publishes nothing. -/
theorem agree_of_handed (reliable : Reliable stands) (reliable' : Reliable stands') {first : Side σ}
    {second : Side τ} (hempty : stands first.store .empty) (hempty' : stands' second.store .empty)
    (hrole : first.settings.startsPrimary = true) (hpublishes : first.publishes = true)
    (hrole' : second.settings.startsPrimary = false) (defaultRegion : String) {now : Nat}
    (hnow : now ≤ Text.maxUnsigned) {l : Link σ τ}
    (hrun : Run (.start defaultRegion now first second) l) :
    l.secondary.outbox = [] ∧ l.secondary.events = 0 ∧ (l.waiting = [] → l.Agree) := by
  have hstart := Follows.start hempty hempty' hrole hpublishes hrole' defaultRegion hnow
  obtain ⟨f, g, ps, h⟩ := hstart.run reliable reliable' hrun
  exact ⟨h.secondary.outbox, h.secondary.events, h.agree reliable reliable'⟩

/-- An instance over an empty table; only the primary has a place in memory. -/
def tableSide (primary : Bool) : Side Table where
  settings := ⟨true, if primary then "a" else "b", primary, 5, 10, 0, true, "events", "health"⟩
  store := .empty
  capacity := if primary then 1 else 0
  notifies := false
  publishes := true
  steady := 0

/-- An infinite score that the primary takes does not come to the secondary. -/
theorem boundless_unfollowed :
    let l := (start "main" 5 (tableSide true) (tableSide false)).act
      (.setValue "main" "k" .boundless none)
    ∃ event : Posted, l.waiting = [event] ∧
      let handed := { l with secondary := l.secondary.follow 5 event.payload, waiting := [] }
      shows handed.primary 5 "main" "k" = some (.boundless, none) ∧
        shows handed.secondary 5 "main" "k" = none ∧ ¬ handed.Agree := by
  intro l
  refine ⟨⟨5, (Event.ofMutation (Text.uuid 0) 5
    (.set (.create 5 "main" "k" .boundless none))).payload⟩, by decide +kernel, ?_⟩
  intro handed
  have hprimary : shows handed.primary 5 "main" "k" = some (.boundless, none) := by decide +kernel
  have hsecondary : shows handed.secondary 5 "main" "k" = none := by decide +kernel
  refine ⟨hprimary, hsecondary, fun h => ?_⟩
  have hsame := h.entries "main" "k"
  have hnow : handed.now = 5 := rfl
  rw [hnow, hprimary, hsecondary] at hsame
  cases hsame

/-- A key that was set and let expire at 5 is on the secondary at 7 until the same moment. -/
theorem agree_of_handed_expiring :
    ∃ l : Link Table Table, Run (.start "main" 5 (tableSide true) (tableSide false)) l ∧
      l.now = 7 ∧ l.waiting = [] ∧
      shows l.secondary l.now "main" "k" = some (.string "v", some 3005) := by
  let l₀ : Link Table Table := .start "main" 5 (tableSide true) (tableSide false)
  let l₁ := l₀.act (.setValue "main" "k" (.string "v") none)
  let l₂ := l₁.act (.expire "main" "k" 3)
  let stored : Posted := ⟨5, (Event.ofMutation (Text.uuid 0) 5
    (.set (.create 5 "main" "k" (.string "v") none))).payload⟩
  let expiring : Posted := ⟨5, (Event.ofMutation (Text.uuid 1) 5 (.expire "main" "k" 3)).payload⟩
  let l₃ : Link Table Table :=
    { l₂ with secondary := l₂.secondary.follow l₂.now stored.payload, waiting := [expiring] }
  let l₄ : Link Table Table :=
    { l₃ with secondary := l₃.secondary.follow l₃.now expiring.payload, waiting := [] }
  let l₅ : Link Table Table := { l₄ with now := 7 }
  have hset : Step l₀ l₁ := .act l₀ _ ⟨trivial, nofun⟩
  have hseconds : (3 : Int) < Text.signedLimit := by decide
  have hexpire : Step l₁ l₂ := .act l₁ (.expire "main" "k" 3) hseconds
  have hfirst : Step l₂ l₃ := .deliver l₂ stored [expiring] (by decide +kernel) fun _ => rfl
  have hsecond : Step l₃ l₄ := .deliver l₃ expiring [] rfl fun _ => rfl
  have hlater : Step l₄ l₅ := .advance l₄ 7 (by decide) (by decide)
  have hrun : Run l₀ l₅ :=
    ((((Relation.ReflTransGen.single hset).tail hexpire).tail hfirst).tail hsecond).tail hlater
  obtain ⟨-, -, hagree⟩ := agree_of_handed Table.reliable Table.reliable rfl rfl rfl rfl rfl "main"
    (by decide) hrun
  refine ⟨l₅, hrun, rfl, rfl, ?_⟩
  rw [← (hagree rfl).entries]
  decide +kernel

end Link
end TierCache
