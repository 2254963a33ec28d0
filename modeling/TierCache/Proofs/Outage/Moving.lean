import TierCache.Engine.Keys
import TierCache.Proofs.Outage.Backed
import TierCache.Proofs.Outage.Cell

/-!
An engine whose store may fail moves on: what it does to each key, and what it tells. Making room and
putting a stored entry into memory move entries between the tiers and do nothing else.
-/
namespace TierCache
open Std

/-- What the tiers have of a key. -/
def Engine.cell {σ : Type} (e : Engine σ) (t : Table) (region key : String) : Cell :=
  ⟨(e.regionD region).known.contains key, (e.regionD region).memory[key]?.map Entry.row,
    t.get? region key⟩

/-- Which kinds of steps are taken for which keys. -/
abbrev Reach := String → String → Cell.Kind → Prop

namespace Reach

/-- Entries move between the tiers. -/
def quiet : Reach := fun _ _ kind => kind.Quiet

/-- Quiet steps for all keys, and steps of the given kinds for some. -/
def onto (among : String → String → Prop) (kinds : List Cell.Kind) : Reach :=
  fun region key kind => kind.Quiet ∨ among region key ∧ kind ∈ kinds

/-- Steps of the given kinds for one key. -/
def only (region key : String) (kinds : List Cell.Kind) : Reach :=
  onto (fun other name => region = other ∧ key = name) kinds

/-- Steps of the given kinds for some keys of a region. -/
def anyOf (region : String) (keys : List String) (kinds : List Cell.Kind) : Reach :=
  onto (fun other name => region = other ∧ name ∈ keys) kinds

theorem not_onto {among : String → String → Prop} {kinds : List Cell.Kind} {region key : String}
    {kind : Cell.Kind} (hquiet : ¬kind.Quiet) (hkind : kind ∉ kinds) :
    ¬onto among kinds region key kind := by
  rintro (h | ⟨-, h⟩)
  · exact hquiet h
  · exact hkind h

theorem onto_mono {among among' : String → String → Prop} {kinds kinds' : List Cell.Kind}
    (hamong : ∀ region key, among region key → among' region key) (hkinds : kinds ⊆ kinds')
    (region key : String) (kind : Cell.Kind) (h : onto among kinds region key kind) :
    onto among' kinds' region key kind :=
  h.imp_right fun h => ⟨hamong region key h.1, hkinds h.2⟩

theorem only_mono {region key : String} {kinds kinds' : List Cell.Kind} (hkinds : kinds ⊆ kinds')
    (other name : String) (kind : Cell.Kind) (h : only region key kinds other name kind) :
    only region key kinds' other name kind :=
  onto_mono (fun _ _ hname => hname) hkinds other name kind h

theorem only_anyOf {region key : String} {keys : List String} {kinds : List Cell.Kind}
    (hkey : key ∈ keys) (other name : String) (kind : Cell.Kind)
    (h : only region key kinds other name kind) : anyOf region keys kinds other name kind :=
  onto_mono (fun _ _ hname => ⟨hname.1, hname.2 ▸ hkey⟩) (List.Subset.refl _) other name kind h

theorem anyOf_mono {region : String} {keys keys' : List String} {kinds : List Cell.Kind}
    (hkeys : keys ⊆ keys') (other name : String) (kind : Cell.Kind)
    (h : anyOf region keys kinds other name kind) : anyOf region keys' kinds other name kind :=
  onto_mono (fun _ _ hname => ⟨hname.1, hkeys hname.2⟩) (List.Subset.refl _) other name kind h

theorem quiet_onto (among : String → String → Prop) (kinds : List Cell.Kind) (region key : String)
    (kind : Cell.Kind) (h : quiet region key kind) : onto among kinds region key kind :=
  .inl h

end Reach

/-- An engine and the rows behind it have moved on to others. -/
structure Moves {σ : Type} (stands : σ → Table → Prop) (now : Nat) (does : Reach)
    (told : List Signal) (e : Engine (Faulty σ)) (t : Table) (e' : Engine (Faulty σ)) (t' : Table) :
    Prop where
  backed : Backed stands e' t'
  later : e.store.Later e'.store
  signals : e'.signals = e.signals ++ told
  path (region key : String) :
    Cell.Path now (does region key) (e.cell t region key) (e'.cell t' region key)

/-- What a signal tells at a reading of the clock is so. -/
def Signal.Holds (now : Nat) (cells : String → String → Cell) : Signal → Prop
  | .mutation (.set entry) => (cells entry.region entry.key).held = some entry.row
  | .mutation (.delete region key) => cells region key = .absent
  | .mutation (.expire region key seconds) => ∃ row : Row, (cells region key).held =
      some { row with expiresAt := some (Engine.secondsAfter now seconds.toNat) }
  | .mutation (.deleteRegion region) => ∀ key, cells region key = .absent
  | .change .. => True

/-- An engine has moved on and told what is so, if the store did all deletes that it was asked for. -/
structure Done {σ : Type} (stands : σ → Table → Prop) (now : Nat) (does : Reach)
    (told : List Signal) (e : Engine (Faulty σ)) (t : Table) (e' : Engine (Faulty σ)) (t' : Table) :
    Prop where
  moves : Moves stands now does told e t e' t'
  holds (answered : e.store.Answered e'.store .delete) {signal : Signal} (h : signal ∈ told) :
    signal.Holds now (e'.cell t')

/-- An operation ends: with an error when it did no more than a reader and told nothing. -/
def Settles {σ α : Type} (stands : σ → Table → Prop) (now : Nat) (does : Reach)
    (e : Engine (Faulty σ)) (t : Table) : Except CacheError α × Engine (Faulty σ) → Prop
  | (.error _, e') => Moves stands now .quiet [] e t e' t
  | (.ok _, e') => ∃ t' told, Done stands now does told e t e' t'

/-- A key was removed: it is not known, and in no tier if the store did the deletes. -/
structure Gone {σ : Type} (e e' : Engine (Faulty σ)) (t' : Table) (region key : String) : Prop where
  unknown : (e'.cell t' region key).known = false
  absent (answered : e.store.Answered e'.store .delete) : e'.cell t' region key = .absent

namespace Engine

variable {σ : Type} {e e' : Engine σ} {t : Table} {region : String}

theorem cell_congr (h : e'.regionD region = e.regionD region) (key : String) :
    e'.cell t region key = e.cell t region key := by
  rw [cell, cell, h]

theorem cell_of_row {t' : Table} {key : String} (h : t'.get? region key = t.get? region key) :
    e.cell t' region key = e.cell t region key := by
  rw [cell, cell, h]

theorem cell_hold (e : Engine σ) (t : Table) (region key other name : String) (entry : Entry) :
    (e.hold region key entry).cell t other name =
      if region = other ∧ key = name then { e.cell t other name with copy := some entry.row }
      else e.cell t other name := by
  rw [cell, known_hold, memory_hold]
  split <;> rfl

theorem signals_announce (e : Engine σ) (m : Mutation) (region key : String) (kind : ChangeKind) :
    (e.announce m region key kind).signals = e.signals ++ [.mutation m, .change region key kind] := by
  rw [announce, signal, signal, List.append_assoc]
  rfl

theorem cell_know (e : Engine σ) (t : Table) (region key other name : String) :
    (e.know region key).cell t other name =
      if region = other ∧ key = name then { e.cell t other name with known := true }
      else e.cell t other name := by
  rw [cell, memory_know]
  have hknown := e.known_know region key other name
  split
  · rename_i hname
    rw [hknown.mpr (.inl hname)]
    rfl
  · rename_i hname
    rw [or_iff_right hname, ← Bool.eq_iff_iff] at hknown
    rw [hknown]
    rfl

/-! ### Making room -/

theorem known_evictOne (e : Engine σ) (region : String) :
    (e.evictOne.2.regionD region).known = (e.regionD region).known := by
  unfold evictOne
  split
  · rfl
  · rename_i home gone _ _
    have hcleared : ((e.setRegion home { e.regionD home with
        memory := (e.regionD home).memory.erase gone,
        lru := (e.regionD home).lru.remove gone }).regionD region).known =
        (e.regionD region).known := by
      rw [regionD_setRegion]
      split
      · rename_i heq
        rw [heq]
      · rfl
    dsimp only
    split
    · exact hcleared
    · exact hcleared

theorem signals_tryReserve (e : Engine σ) : e.tryReserve.2.signals = e.signals := by
  unfold tryReserve
  split <;> rfl

theorem signals_evictOne (e : Engine σ) : e.evictOne.2.signals = e.signals := by
  unfold evictOne
  split
  · rfl
  · dsimp only
    split <;> rfl

theorem known_reserve (e : Engine σ) (region : String) :
    (e.reserve.2.regionD region).known = (e.regionD region).known :=
  reserve_keeps (P := fun later => (later.regionD region).known = (e.regionD region).known)
    (fun later h => (congrArg Region.known (regionD_of_regions later.regions_tryReserve _)).trans h)
    (fun later h => (later.known_evictOne region).trans h) rfl

theorem signals_reserve (e : Engine σ) : e.reserve.2.signals = e.signals :=
  reserve_keeps (P := fun later => later.signals = e.signals)
    (fun later h => later.signals_tryReserve.trans h)
    (fun later h => later.signals_evictOne.trans h) rfl

theorem signals_install (e : Engine σ) (region : String) (entry : Entry) (reserved : Bool) :
    (e.install region entry reserved).2.signals = e.signals := by
  have htry := e.signals_tryReserve
  unfold install
  split
  · dsimp only
    split <;> rfl
  · split
    · rfl
    · split
      · rename_i heq
        rwa [heq] at htry
      · rename_i heq
        rwa [heq] at htry

theorem signals_ensureRegion (e : Engine σ) (region : String) :
    (e.ensureRegion region).signals = e.signals := by
  obtain ⟨-, heq⟩ | ⟨-, heq⟩ := e.ensureRegion_cases region
  · rw [heq]
  · rw [heq]
    rfl

end Engine

namespace Moves

variable {σ : Type} {stands : σ → Table → Prop} {now : Nat} {does may : Reach}
  {told told' : List Signal} {e e' e'' : Engine (Faulty σ)} {t t' t'' : Table}

theorem trans (h : Moves stands now does told e t e' t')
    (h' : Moves stands now does told' e' t' e'' t'') :
    Moves stands now does (told ++ told') e t e'' t'' :=
  ⟨h'.backed, h.later.trans h'.later, by rw [h'.signals, h.signals, List.append_assoc],
    fun region key => (h.path region key).trans (h'.path region key)⟩

theorem mono (h : Moves stands now does told e t e' t')
    (hdoes : ∀ region key kind, does region key kind → may region key kind) :
    Moves stands now may told e t e' t' :=
  ⟨h.backed, h.later, h.signals, fun region key => (h.path region key).mono (hdoes region key)⟩

/-- Nothing is done to any key. -/
theorem still (backed : Backed stands e' t) (later : e.store.Later e'.store)
    (signals : e'.signals = e.signals)
    (cells : ∀ region key, e'.cell t region key = e.cell t region key) :
    Moves stands now does [] e t e' t := by
  refine ⟨backed, later, by rw [signals, List.append_nil], ?_⟩
  intro region key
  rw [cells]
  exact .refl _

theorem of_regions (backed : Backed stands e' t) (later : e.store.Later e'.store)
    (signals : e'.signals = e.signals) (regions : e'.regions = e.regions) :
    Moves stands now does [] e t e' t :=
  still backed later signals fun region key =>
    Engine.cell_congr (Engine.regionD_of_regions regions region) key

theorem refl (h : Backed stands e t) : Moves stands now does [] e t e t :=
  of_regions h (.refl _) rfl rfl

/-- Only the store was asked. -/
theorem asked {s : Faulty σ} (backed : Backed stands { e with store := s } t)
    (later : e.store.Later s) : Moves stands now does [] e t { e with store := s } t :=
  of_regions backed later rfl rfl

theorem announce (h : Moves stands now does [] e t e' t') (m : Mutation) (region key : String)
    (kind : ChangeKind) : Moves stands now does [.mutation m, .change region key kind] e t
      (e'.announce m region key kind) t' := by
  refine ⟨h.backed.of_eq rfl rfl, h.later, ?_, h.path⟩
  rw [Engine.signals_announce, h.signals, List.append_nil]

theorem ensureRegion (h : Backed stands e t) (region : String) :
    Moves stands now does [] e t (e.ensureRegion region) t := by
  refine still (h.ensureRegion region) ?_ (e.signals_ensureRegion region) ?_
  · rw [Engine.store_ensureRegion]
    exact .refl _
  · exact fun other key => Engine.cell_congr (e.regionD_ensureRegion region other) key

theorem tryReserve (h : Backed stands e t) : Moves stands now does [] e t e.tryReserve.2 t := by
  refine of_regions h.tryReserve ?_ e.signals_tryReserve e.regions_tryReserve
  rw [Engine.store_tryReserve]
  exact .refl _

/-- A key with a stored entry becomes known. -/
theorem know (h : Backed stands e t) {region key : String} (hrow : (t.get? region key).isSome) :
    Moves stands now (.only region key [.learn]) [] e t (e.know region key) t := by
  refine ⟨h.know hrow, .refl _, (List.append_nil _).symm, ?_⟩
  intro other name
  rw [Engine.cell_know]
  split
  · rename_i hname
    obtain ⟨rfl, rfl⟩ := hname
    exact .one (.inr ⟨⟨rfl, rfl⟩, .head _⟩) (.learn hrow)
  · exact .refl _

/-- Entries may leave memory to make room. -/
theorem reserve (h : Backed stands e t) : Moves stands now .quiet [] e t e.reserve.2 t := by
  refine ⟨h.reserve, ?_, by rw [e.signals_reserve, List.append_nil], ?_⟩
  · rw [Engine.store_reserve]
    exact .refl _
  · intro region key
    have hcell : e.reserve.2.cell t region key = { e.cell t region key with
        copy := (e.reserve.2.regionD region).memory[key]?.map Entry.row } := by
      rw [Engine.cell, e.known_reserve]
      rfl
    rw [hcell]
    cases hm : (e.reserve.2.regionD region).memory[key]? with
    | none => exact .one (.inl rfl) .drop
    | some entry =>
      rw [Engine.cell, e.shrinks_reserve region key entry hm]
      exact .refl _

/-- A stored entry is put into memory. -/
theorem install (h : Backed stands e t) (region : String) (entry : Entry) {row : Entry}
    (reserved : Bool) (hrow : t.get? region entry.key = some row) (hsame : entry.row = row.row)
    (hregion : entry.region = region) :
    Moves stands now .quiet [] e t (e.install region entry reserved).2 t := by
  have hagrees : entry.Agrees t region entry.key := by
    refine ⟨hregion, rfl, ?_⟩
    intro found hfound
    cases hrow.symm.trans hfound
    exact hsame.symm
  refine ⟨h.install hagrees reserved, ?_, ?_, ?_⟩
  · rw [Engine.store_install]
    exact .refl _
  · rw [Engine.signals_install, List.append_nil]
  · intro other name
    obtain hheld | ⟨-, hkept⟩ := e.regions_install region entry reserved
    · rw [Engine.cell_congr (Engine.regionD_of_regions hheld other), Engine.cell_hold]
      split
      · rename_i hname
        obtain ⟨rfl, rfl⟩ := hname
        rw [hsame]
        exact .one (.inr rfl) (.promote hrow)
      · exact .refl _
    · rw [Engine.cell_congr (Engine.regionD_of_regions hkept other)]
      exact .refl _

end Moves

namespace Done

variable {σ : Type} {stands : σ → Table → Prop} {now : Nat} {does may : Reach} {told : List Signal}
  {e e₁ e' : Engine (Faulty σ)} {t t₁ t' : Table}

/-- Who tells nothing tells nothing wrong. -/
theorem of_moves (h : Moves stands now does [] e t e' t') : Done stands now does [] e t e' t' :=
  ⟨h, fun _ _ hsignal => nomatch hsignal⟩

/-- Of what is announced, only the mutation is to be so. -/
theorem of_announced {m : Mutation} {region key : String} {kind : ChangeKind}
    (h : Moves stands now does [.mutation m, .change region key kind] e t e' t')
    (holds : e.store.Answered e'.store .delete → (Signal.mutation m).Holds now (e'.cell t')) :
    Done stands now does [.mutation m, .change region key kind] e t e' t' := by
  refine ⟨h, ?_⟩
  intro answered signal hsignal
  simp only [List.mem_cons, List.not_mem_nil, or_false] at hsignal
  obtain rfl | rfl := hsignal
  · exact holds answered
  · trivial

theorem after (h : Done stands now does told e₁ t₁ e' t')
    (hmoves : Moves stands now does [] e t e₁ t₁) : Done stands now does told e t e' t' :=
  ⟨hmoves.trans h.moves, fun answered => h.holds (answered.rest hmoves.later)⟩

theorem mono (h : Done stands now does told e t e' t')
    (hdoes : ∀ region key kind, does region key kind → may region key kind) :
    Done stands now may told e t e' t' :=
  ⟨h.moves.mono hdoes, h.holds⟩

end Done

namespace Settles

variable {σ α : Type} {stands : σ → Table → Prop} {now : Nat} {does : Reach}
  {e : Engine (Faulty σ)} {t : Table}

/-- Nothing came of it. -/
theorem idle {e' : Engine (Faulty σ)} (h : Moves stands now .quiet [] e t e' t) (a : α)
    (hdoes : ∀ region key kind, Reach.quiet region key kind → does region key kind) :
    Settles stands now does e t (.ok a, e') :=
  ⟨t, [], .of_moves (h.mono hdoes)⟩

theorem after {e₁ : Engine (Faulty σ)} {outcome : Except CacheError α × Engine (Faulty σ)}
    (h : Settles stands now does e₁ t outcome) (hmoves : Moves stands now .quiet [] e t e₁ t)
    (hdoes : ∀ region key kind, Reach.quiet region key kind → does region key kind) :
    Settles stands now does e t outcome := by
  obtain ⟨_ | _, e'⟩ := outcome
  · exact hmoves.trans h
  · obtain ⟨t', told, hdone⟩ := h
    exact ⟨t', told, hdone.after (hmoves.mono hdoes)⟩

theorem ends {outcome : Except CacheError α × Engine (Faulty σ)}
    (h : Settles stands now does e t outcome) :
    ((∃ err, outcome.1 = .error err) → Moves stands now .quiet [] e t outcome.2 t) ∧
      ((¬∃ err, outcome.1 = .error err) →
        ∃ t' told, Done stands now does told e t outcome.2 t') := by
  obtain ⟨_ | _, e'⟩ := outcome
  · exact ⟨fun _ => h, fun hdone => absurd ⟨_, rfl⟩ hdone⟩
  · refine ⟨?_, fun _ => h⟩
    rintro ⟨err, herr⟩
    cases herr

theorem moves {outcome : Except CacheError α × Engine (Faulty σ)}
    (h : Settles stands now does e t outcome)
    (hdoes : ∀ region key kind, Reach.quiet region key kind → does region key kind) :
    ∃ t' told, Moves stands now does told e t outcome.2 t' := by
  obtain ⟨_ | _, e'⟩ := outcome
  · exact ⟨t, [], Moves.mono h hdoes⟩
  · obtain ⟨t', told, hdone⟩ := h
    exact ⟨t', told, hdone.moves⟩

end Settles

theorem Gone.after {σ : Type} {e e₁ e' : Engine (Faulty σ)} {t' : Table} {region key : String}
    (h : Gone e₁ e' t' region key) (later : e.store.Later e₁.store) : Gone e e' t' region key :=
  ⟨h.unknown, fun answered => h.absent (answered.rest later)⟩

/-- A key that was removed stays so while nobody writes it or primes the cache. -/
theorem Gone.stays {σ : Type} {stands : σ → Table → Prop} {now : Nat} {does : Reach}
    {told : List Signal} {e e₁ e' : Engine (Faulty σ)} {t t' : Table} {region key : String}
    (h : Gone e e₁ t region key) (hmoves : Moves stands now does told e₁ t e' t')
    (hcreate : ¬does region key .create) (hrewrite : ¬does region key .rewrite)
    (hlearn : ¬does region key .learn) : Gone e e' t' region key := by
  refine ⟨(hmoves.path region key).unknown h.unknown hcreate hrewrite hlearn, ?_⟩
  intro answered
  have hpath := hmoves.path region key
  rw [h.absent (answered.first hmoves.later)] at hpath
  exact hpath.absent hcreate

end TierCache
