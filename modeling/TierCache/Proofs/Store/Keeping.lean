import TierCache.Proofs.Store.Requests
import TierCache.Proofs.Store.Rewriting

/-!
The upkeep of all logs of a directory. Whatever is asked of the store, and however often it is opened
anew, each log knows the records in its file and has no reason to rewrite it.
-/
namespace TierCache
open Std

namespace LogStore

/-- The directory holds logs of regions and nothing else. Those that still wait to be opened, and that
of the region without a name, may have none open; an open log holds what its file does. -/
structure Kept (ok : Prop) (waiting : List String) (s : LogStore) : Prop where
  present : s.directory.presence = .present
  waits {name : String} (h : name ∈ waiting) : (s.directory.nodes[name]?).isSome
  named {name : String} (h : (s.directory.nodes[name]?).isSome) : ∃ region,
    name = FileName.ofRegion region ∧ (name ∈ waiting ∨ region = "" ∨ (s.logs[region]?).isSome)
  file {name : String} {node : Node} (h : s.directory.nodes[name]? = some node) :
    ∃ serial rs, node = .file serial (LogRecord.textOf rs).utf8Encode ∧ (ok → ∀ r ∈ rs, r.Storable)
  log {region : String} {log : RegionLog} (h : s.logs[region]? = some log) :
    log.name = FileName.ofRegion region ∧ log.needsRewrite = false ∧
      ∃ rs, RegionLog.Holds ok s.directory log rs

section
variable {ok : Prop} {waiting : List String} {s : LogStore}

theorem Kept.beside (h : Kept ok waiting s) (name : String) :
    s.directory.nodes[FileName.rewritten name]? = none := by
  by_contra hsome
  obtain ⟨region, hname, -⟩ := h.named (Option.isSome_iff_ne_none.2 hsome)
  exact FileName.rewritten_ne name region hname

/-- Nothing but the log of one region is changed, be it that it goes away with its file. -/
theorem Kept.change (h : Kept ok waiting s) {s' : LogStore} (region : String)
    (hpresent : s'.directory.presence = .present)
    (hlogs : ∀ other, region ≠ other → s'.logs[other]? = s.logs[other]?)
    (hfiles : ∀ name, name ≠ FileName.ofRegion region →
      s'.directory.nodes[name]? = s.directory.nodes[name]?)
    (hwaits : FileName.ofRegion region ∈ waiting →
      (s'.directory.nodes[FileName.ofRegion region]?).isSome)
    (hopen : (s'.directory.nodes[FileName.ofRegion region]?).isSome → (s'.logs[region]?).isSome)
    (hlog : ∀ log, s'.logs[region]? = some log → log.name = FileName.ofRegion region ∧
      log.needsRewrite = false ∧ ∃ rs, RegionLog.Holds ok s'.directory log rs) :
    Kept ok waiting s' := by
  constructor
  case present => exact hpresent
  case waits =>
    intro name hname
    by_cases hown : name = FileName.ofRegion region
    · subst hown
      exact hwaits hname
    · rw [hfiles name hown]
      exact h.waits hname
  case named =>
    intro name hsome
    by_cases hown : name = FileName.ofRegion region
    · subst hown
      exact ⟨region, rfl, .inr (.inr (hopen hsome))⟩
    · rw [hfiles name hown] at hsome
      obtain ⟨other, hother, hdone⟩ := h.named hsome
      have hregion : region ≠ other := by
        rintro rfl
        exact hown hother
      exact ⟨other, hother, by rwa [hlogs other hregion]⟩
  case file =>
    intro name node hnode
    by_cases hown : name = FileName.ofRegion region
    · subst hown
      obtain ⟨log, hsome⟩ := Option.isSome_iff_exists.1 (hopen (Option.isSome_of_eq_some hnode))
      obtain ⟨hname, -, rs, hholds⟩ := hlog log hsome
      have hsame := hholds.file
      rw [hname, hnode] at hsame
      exact ⟨_, rs, Option.some.inj hsame, hholds.storable⟩
    · rw [hfiles name hown] at hnode
      exact h.file hnode
  case log =>
    intro other otherLog hother
    by_cases hown : region = other
    · subst hown
      exact hlog otherLog hother
    · rw [hlogs other hown] at hother
      obtain ⟨hname, hfew, rs, hholds⟩ := h.log hother
      refine ⟨hname, hfew, rs, hholds.of_same hpresent ?_⟩
      exact hfiles _ fun heq => hown (FileName.ofRegion_inj (hname.symm.trans heq)).symm

/-- The log of a region is changed, or opened for the first time. -/
theorem Kept.update (h : Kept ok waiting s) {region name : String}
    (hname : name = FileName.ofRegion region) {index : ExtTreeMap String Entry}
    {out : RegionLog × Directory} (hout : RegionLog.Settles ok s.directory name index out) :
    Kept ok waiting (s.update region out) := by
  subst hname
  obtain ⟨log, d⟩ := out
  obtain ⟨hsame, -, hfew, ⟨rs, hholds⟩, hothers⟩ := hout
  have hget (other : String) : (s.logs.insert region log)[other]? =
      if region = other then some log else s.logs[other]? := Tree.get_insert _ _ _ _
  refine h.change region hholds.present (fun other hother => ?_) hothers (fun _ => ?_)
    (fun _ => ?_) fun other hother => ?_
  · rw [LogStore.update, hget, if_neg hother]
  · exact hsame ▸ Option.isSome_of_eq_some hholds.file
  · rw [LogStore.update, hget, if_pos rfl]
    rfl
  · rw [LogStore.update, hget, if_pos rfl] at hother
    cases hother
    exact ⟨hsame, hfew, rs, hholds⟩

/-- A log is opened from its file, or made with an empty one. -/
theorem Kept.openFile (h : Kept ok waiting s) (region : String) :
    ∃ log d rs, RegionLog.openFile s.directory (FileName.ofRegion region) = (.ok log, d) ∧
      log.name = FileName.ofRegion region ∧ RegionLog.Holds ok d log rs ∧
      ∀ other, other ≠ log.name → d.nodes[other]? = s.directory.nodes[other]? := by
  cases hnode : s.directory.nodes[FileName.ofRegion region]? with
  | none =>
    exact ⟨_, _, [], RegionLog.openFile_none h.present hnode, rfl, RegionLog.holds_created,
      fun other hother => (Tree.get_insert _ _ _ _).trans (if_neg hother.symm)⟩
  | some node =>
    obtain ⟨serial, rs, rfl, hstorable⟩ := h.file hnode
    exact ⟨_, _, rs, RegionLog.openFile_lines h.present hnode, rfl,
      RegionLog.holds_opened h.present hnode hstorable, fun _ _ => rfl⟩

/-- The log of a region is open, or is opened without touching another. -/
theorem Kept.logFor (h : Kept ok [] s) (region : String) :
    ∃ log d rs, s.logFor region = (.ok log, ⟨d, s.logs.insert region log⟩) ∧
      log.name = FileName.ofRegion region ∧ RegionLog.Holds ok d log rs ∧
      ∀ other, other ≠ log.name → d.nodes[other]? = s.directory.nodes[other]? := by
  cases hlog : s.logs[region]? with
  | some log =>
    obtain ⟨hname, -, rs, hholds⟩ := h.log hlog
    exact ⟨log, s.directory, rs, by rw [LogStore.logFor, hlog, Tree.insert_of_some _ hlog], hname,
      hholds, fun _ _ => rfl⟩
  | none =>
    obtain ⟨log, d, rs, hopen, hname, hholds, hothers⟩ := h.openFile region
    exact ⟨log, d, rs, by rw [LogStore.logFor, hlog, hopen], hname, hholds, hothers⟩

end

/-! ### Calls -/

section
variable {ok : Prop} {s : LogStore} (h : Kept ok [] s)
include h

/-- What is saved is in the region's log then. -/
theorem Kept.save {e : Entry} (he : ok → e.Storable) :
    ∃ s', s.save e = (.ok (), s') ∧ Kept ok [] s' ∧
      ∃ log, s'.logs[e.region]? = some log ∧ log.index[e.key]? = some e := by
  obtain ⟨log, d, rs, hopen, hname, hholds, hothers⟩ := h.logFor e.region
  have hbeside : d.nodes[FileName.rewritten log.name]? = none :=
    (hothers _ (hname ▸ FileName.rewritten_ne _ _)).trans (h.beside _)
  have hsettles := (hholds.put hbeside he).since hothers
  refine ⟨s.update e.region (log.put d e), ?_, h.update hname hsettles, (log.put d e).1, ?_, ?_⟩
  · simp only [LogStore.save, hopen, LogStore.update, Tree.insert_insert]
  · exact (Tree.get_insert _ _ _ _).trans (if_pos rfl)
  · rw [hsettles.index]
    exact (Tree.get_insert _ _ _ _).trans (if_pos rfl)

theorem Kept.remove {region : String} {log : RegionLog} (hlog : s.logs[region]? = some log)
    (key : String) : Kept ok [] (s.update region (log.remove s.directory key).2) := by
  obtain ⟨hname, hfew, rs, hholds⟩ := h.log hlog
  exact h.update hname (hholds.remove (h.beside _) hfew key)

theorem Kept.erase (region key : String) : Kept ok [] (s.erase region key) := by
  rw [LogStore.erase]
  cases hlog : s.logs[region]? with
  | none => exact h
  | some log => exact h.remove hlog key

theorem Kept.setExpiry {expiresAt : Option Nat} (hrange : ok → ∀ n ∈ expiresAt, n ≤ Text.maxUnsigned)
    (region key : String) : Kept ok [] (s.setExpiry region key expiresAt) := by
  rw [LogStore.setExpiry]
  cases hlog : s.logs[region]? with
  | none => exact h
  | some log =>
    dsimp only
    cases hentry : log.index[key]? with
    | none => exact h
    | some e =>
      obtain ⟨hname, -, rs, hholds⟩ := h.log hlog
      -- the entry comes from the file, so JSON can hold it apart from the new expiry
      have he (hok : ok) : ({ e with expiresAt } : Entry).Storable := by
        obtain ⟨hvalue, hcreated, haccessed, -⟩ := hholds.allStorable hok key e hentry
        exact ⟨hvalue, hcreated, haccessed, hrange hok⟩
      exact h.update hname (hholds.put (h.beside _) he)

theorem Kept.eraseRegion (region : String) :
    ∃ s', s.eraseRegion region = (.ok (), s') ∧ Kept ok [] s' := by
  rw [LogStore.eraseRegion]
  cases hlog : s.logs[region]? with
  | none => exact ⟨s, rfl, h⟩
  | some log =>
    obtain ⟨hname, -, rs, hholds⟩ := h.log hlog
    have hcontains : s.directory.nodes.contains log.name = true := by
      rw [ExtTreeMap.contains_eq_isSome_getElem?, hholds.file]
      rfl
    have hremove : s.directory.remove log.name =
        (.ok (), { s.directory with nodes := s.directory.nodes.erase log.name }) := by
      simp only [Directory.remove, hholds.file]
    have hnodes (name : String) : (s.directory.nodes.erase log.name)[name]? =
        if log.name = name then none else s.directory.nodes[name]? := Tree.get_erase _ _ _
    have hlogs (other : String) : (s.logs.erase region)[other]? =
        if region = other then none else s.logs[other]? := Tree.get_erase _ _ _
    refine ⟨⟨{ s.directory with nodes := s.directory.nodes.erase log.name }, s.logs.erase region⟩,
      by simp only [hcontains, if_true, hremove], ?_⟩
    refine h.change region h.present (fun other hother => ?_) (fun name hother => ?_)
      (fun hwaits => absurd hwaits List.not_mem_nil) (fun hsome => ?_) fun log hnone => ?_
    · exact (hlogs other).trans (if_neg hother)
    · exact (hnodes name).trans (if_neg (hname ▸ hother.symm))
    · rw [hnodes, if_pos hname] at hsome
      cases hsome
    · rw [hlogs, if_pos rfl] at hnone
      cases hnone

theorem Kept.eraseKeys (region : String) (keys : List String) :
    Kept ok [] (s.eraseKeys region keys).2 := by
  induction keys generalizing s with
  | nil => exact h
  | cons key keys ih =>
    rw [LogStore.eraseKeys]
    cases hlog : s.logs[region]? with
    | none => exact h
    | some log => exact ih (h.remove hlog key)

theorem Kept.eraseExpired (now : Nat) (regions : List String) :
    Kept ok [] (s.eraseExpired now regions).2 := by
  induction regions generalizing s with
  | nil => exact h
  | cons region regions ih => exact ih (h.eraseKeys region (s.expiredKeys region now))

end

/-! ### Opening a directory -/

/-- A log that is open, or never will be, waits no longer. -/
theorem Kept.next {ok : Prop} {s : LogStore} {region : String} {names : List String}
    (h : Kept ok (FileName.ofRegion region :: names) s)
    (hdone : region = "" ∨ (s.logs[region]?).isSome) : Kept ok names s := by
  refine ⟨h.present, fun hname => h.waits (List.mem_cons_of_mem _ hname), ?_, h.file, h.log⟩
  intro name hsome
  obtain ⟨other, hother, hwaits | hopen⟩ := h.named hsome
  · obtain heq | hwaits := List.mem_cons.1 hwaits
    · exact ⟨region, heq, .inr hdone⟩
    · exact ⟨other, hother, .inl hwaits⟩
  · exact ⟨other, hother, .inr hopen⟩

/-- One log that waits is opened from its file and tidied up. -/
theorem Kept.openNext {ok : Prop} {s : LogStore} {region : String} {names : List String}
    (h : Kept ok (FileName.ofRegion region :: names) s) :
    ∃ log d, RegionLog.openFile s.directory (FileName.ofRegion region) = (.ok log, d) ∧
      RegionLog.Settles ok s.directory (FileName.ofRegion region) log.index (log.tidy d) ∧
      Kept ok names (s.update region (log.tidy d)) := by
  obtain ⟨log, d, rs, hopen, hname, hholds, hothers⟩ := h.openFile region
  have hbeside : d.nodes[FileName.rewritten log.name]? = none :=
    (hothers _ (hname ▸ FileName.rewritten_ne _ _)).trans (h.beside _)
  have hsettles := (hholds.tidy hbeside).since hothers
  have hlog : (s.update region (log.tidy d)).logs[region]? = some (log.tidy d).1 :=
    (Tree.get_insert _ _ _ _).trans (if_pos rfl)
  exact ⟨log, d, hopen, hname ▸ hsettles,
    (h.update hname hsettles).next (.inr (Option.isSome_of_eq_some hlog))⟩

/-- All logs that wait are opened, but for that of the region without a name, with what their files
replay to. -/
theorem Kept.openAll {ok : Prop} {s : LogStore} {names : List String} (h : Kept ok names s)
    (hnodup : names.Nodup) : ∃ s', s.openAll names = (.ok (), s') ∧ Kept ok [] s' ∧
      ∀ region, region ≠ "" → (FileName.ofRegion region ∉ names → s'.logs[region]? = s.logs[region]?) ∧
        ∀ serial rs, FileName.ofRegion region ∈ names →
          s.directory.nodes[FileName.ofRegion region]? =
            some (.file serial (LogRecord.textOf rs).utf8Encode) →
          ∃ log, s'.logs[region]? = some log ∧
            log.index = LogRecord.replay (LogRecord.ofText (LogRecord.textOf rs)) := by
  -- on the names that still wait; no later one opens the log of a region that was opened already
  induction names generalizing s with
  | nil =>
    exact ⟨s, rfl, h, fun region _ => ⟨fun _ => rfl, fun _ _ hname => absurd hname List.not_mem_nil⟩⟩
  | cons name names ih =>
    rw [List.nodup_cons] at hnodup
    obtain ⟨hnew, hrest⟩ := hnodup
    obtain ⟨region, rfl, -⟩ := h.named (h.waits List.mem_cons_self)
    obtain ⟨hunnamed, hnone⟩ | ⟨hregion, hsome⟩ := FileName.region?_ofRegion_cases region
    · -- `.log` itself is passed over
      obtain ⟨s', hopen, hkept, hfound⟩ := ih (h.next (.inl hunnamed)) hrest
      refine ⟨s', by simp only [LogStore.openAll, hnone, hopen], hkept, fun other hother => ?_⟩
      have hne : FileName.ofRegion other ≠ FileName.ofRegion region := fun heq =>
        hother ((FileName.ofRegion_inj heq).trans hunnamed)
      simp only [List.mem_cons, hne, false_or]
      exact hfound other hother
    · obtain ⟨log, d, hopen, hsettles, hdone⟩ := h.openNext
      obtain ⟨s', hlast, hkept, hfound⟩ := ih hdone hrest
      have hlogs (other : String) : (s.update region (log.tidy d)).logs[other]? =
          if region = other then some (log.tidy d).1 else s.logs[other]? := Tree.get_insert _ _ _ _
      refine ⟨s', ?_, hkept, fun other hother => ⟨fun hout => ?_, fun serial others hin hfile => ?_⟩⟩
      · simp only [LogStore.openAll, hsome, hopen]
        exact hlast
      · rw [List.mem_cons, not_or] at hout
        rw [(hfound other hother).1 hout.2, hlogs, if_neg]
        rintro rfl
        exact hout.1 rfl
      · by_cases heq : region = other
        · subst heq
          refine ⟨_, ((hfound region hregion).1 hnew).trans ((hlogs region).trans (if_pos rfl)), ?_⟩
          rw [hsettles.index]
          cases hopen.symm.trans (RegionLog.openFile_lines h.present hfile)
          rfl
        · have hne : FileName.ofRegion other ≠ FileName.ofRegion region := fun hsame =>
            heq (FileName.ofRegion_inj hsame).symm
          refine (hfound other hother).2 serial others ((List.mem_cons.1 hin).resolve_left hne) ?_
          exact (hsettles.others _ hne).trans hfile

/-- Opening the directory anew finds the logs of all regions with a name, and their entries if JSON can
hold them. -/
theorem Kept.reopen {ok : Prop} {s : LogStore} (h : Kept ok [] s) :
    ∃ s', (ofDirectory s.directory).load = (.ok (), s') ∧ Kept ok [] s' ∧
      ∀ region, region ≠ "" → (s'.logs[region]?).isSome = (s.logs[region]?).isSome ∧
        (ok → s'.index region = s.index region) := by
  have hwaiting : Kept ok s.directory.nodes.keys (ofDirectory s.directory) := by
    refine ⟨h.present, Tree.mem_keys_iff.1, fun hsome => ?_, h.file, fun hlog => ?_⟩
    · obtain ⟨region, hname, -⟩ := h.named hsome
      exact ⟨region, hname, .inl (Tree.mem_keys_iff.2 hsome)⟩
    · rw [ofDirectory, ExtTreeMap.getElem?_empty] at hlog
      cases hlog
  obtain ⟨s', hopen, hkept, hfound⟩ := hwaiting.openAll ExtTreeMap.nodup_keys
  refine ⟨s', ?_, hkept, fun region hregion => ?_⟩
  · simp only [load, ofDirectory, Directory.create, Directory.names, h.present, if_true]
    exact hopen
  · cases hlog : s.logs[region]? with
    | none =>
      have hout : FileName.ofRegion region ∉ s.directory.nodes.keys := by
        intro hin
        obtain ⟨other, hother, hwaits | hunnamed | hsome⟩ := h.named (Tree.mem_keys_iff.1 hin)
        · exact List.not_mem_nil hwaits
        · exact hregion ((FileName.ofRegion_inj hother).trans hunnamed)
        · rw [← FileName.ofRegion_inj hother, hlog] at hsome
          cases hsome
      have hnone : s'.logs[region]? = none :=
        ((hfound region hregion).1 hout).trans ExtTreeMap.getElem?_empty
      exact ⟨by rw [hnone], fun _ => by rw [index_of_none hnone, index_of_none hlog]⟩
    | some log =>
      obtain ⟨hname, -, rs, hholds⟩ := h.log hlog
      have hfile := hname ▸ hholds.file
      obtain ⟨found, hsome, hindex⟩ := (hfound region hregion).2 _ rs
        (Tree.mem_keys_iff.2 (Option.isSome_of_eq_some hfile)) hfile
      refine ⟨by rw [hsome]; rfl, fun hok => ?_⟩
      rw [index_of_log hsome, index_of_log hlog, hindex,
        LogRecord.ofText_textOf (hholds.storable hok), hholds.index hok]

/-- A directory without files, or none yet, is opened as an empty store. -/
theorem kept_load_empty (ok : Prop) {d : Directory} (hfree : d.presence ≠ .blocked)
    (hempty : d.nodes = ∅) : ∃ s, (ofDirectory d).load = (.ok (), s) ∧ Kept ok [] s := by
  refine ⟨_, load_empty hfree hempty, rfl, nofun, fun hsome => ?_, fun hnode => ?_, fun hlog => ?_⟩
  · rw [hempty, ExtTreeMap.getElem?_empty] at hsome
    cases hsome
  · rw [hempty, ExtTreeMap.getElem?_empty] at hnode
    cases hnode
  · rw [ExtTreeMap.getElem?_empty] at hlog
    cases hlog

end LogStore

namespace Request

/-- JSON can hold the entry that is saved, and an expiry is an unsigned integer of 64 bits. -/
def Storable : Request → Prop
  | save e => e.Storable
  | updateExpiry _ _ expiresAt => ∀ t ∈ expiresAt, t ≤ Text.maxUnsigned
  | _ => True

/-- What a run of requests leaves of a store. -/
def after (b : Backend) (requests : List Request) : Backend :=
  requests.foldl (fun b r => (r.perform b).2) b

/-- Every request leaves the logs in order. -/
theorem kept_perform {ok : Prop} {s : LogStore} (h : s.Kept ok []) {r : Request}
    (hr : ok → r.Storable) : ∃ s', (r.perform (.file s)).2 = .file s' ∧ s'.Kept ok [] := by
  cases r with
  | save e =>
    obtain ⟨s', hsave, hkept, -⟩ := h.save hr
    exact ⟨s', by simp [perform, Store.save, Backend.run, hsave], hkept⟩
  | delete region key => exact ⟨_, rfl, h.erase region key⟩
  | deleteRegion region =>
    obtain ⟨s', herase, hkept⟩ := h.eraseRegion region
    exact ⟨s', by simp [perform, Store.deleteRegion, Backend.run, herase], hkept⟩
  | updateExpiry region key expiresAt => exact ⟨_, rfl, h.setExpiry hr region key⟩
  | deleteExpired now => exact ⟨_, rfl, h.eraseExpired now _⟩
  | reopen =>
    obtain ⟨s', hopen, hkept, -⟩ := h.reopen
    exact ⟨s', by rw [perform_reopen hopen], hkept⟩
  | load region key | loadAll | loadRegion region | count region | regions => exact ⟨s, rfl, h⟩

theorem kept_after {ok : Prop} {s : LogStore} (h : s.Kept ok []) {requests : List Request}
    (hrequests : ∀ r ∈ requests, ok → r.Storable) :
    ∃ s', after (.file s) requests = .file s' ∧ s'.Kept ok [] := by
  induction requests generalizing s with
  | nil => exact ⟨s, rfl, h⟩
  | cons r rest ih =>
    rw [List.forall_mem_cons] at hrequests
    obtain ⟨s', hperform, hkept⟩ := kept_perform h hrequests.1
    obtain ⟨last, hafter, hlast⟩ := ih hkept hrequests.2
    exact ⟨last, by rw [after, List.foldl_cons, hperform]; exact hafter, hlast⟩

/-- Whatever is asked of a store that starts over a directory without files leaves the logs in order. -/
theorem kept_run (ok : Prop) {d : Directory} (hfree : d.presence ≠ .blocked) (hempty : d.nodes = ∅)
    (requests : List Request) (hrequests : ∀ r ∈ requests, ok → r.Storable) :
    ∃ s, after (.ofKind d .file) (.reopen :: requests) = .file s ∧ s.Kept ok [] := by
  obtain ⟨s, hopen, hkept⟩ := LogStore.kept_load_empty ok hfree hempty
  obtain ⟨s', hafter, hkept'⟩ := kept_after hkept hrequests
  have hfirst : perform (.ofKind d .file) .reopen = (.ok .done, .file s) :=
    perform_reopen (s := .ofDirectory d) hopen
  exact ⟨s', by rw [after, List.foldl_cons, hfirst]; exact hafter, hkept'⟩

/-- Over a directory without files, or one still to be made, after any requests: a log counts fewer
than 1024 records or at most twice its entries, and every file is that of a log, except after a
restart that of the region without a name. If JSON can hold all that was asked for, the file of a log
holds just as many records as are counted, and a rewriting, be it after further records, changes
neither the entries nor what the file is opened as later. -/
theorem rewritten_in_time {d : Directory} (hfree : d.presence ≠ .blocked) (hempty : d.nodes = ∅)
    (requests : List Request) :
    ∃ s, after (.ofKind d .file) (.reopen :: requests) = .file s ∧
      (∀ name, (s.directory.nodes[name]?).isSome → ∃ region,
        name = FileName.ofRegion region ∧ (region = "" ∨ (s.logs[region]?).isSome)) ∧
      ∀ region log, s.logs[region]? = some log →
        (log.records < 1024 ∨ log.records ≤ 2 * log.index.size) ∧
          ((∀ r ∈ requests, r.Storable) →
            (∃ rs, s.directory.nodes[FileName.ofRegion region]? =
              some (.file log.serial (LogRecord.textOf rs).utf8Encode) ∧
                rs.length = log.records ∧ LogRecord.replay rs = log.index) ∧
            ∀ more : List LogRecord, (∀ r ∈ more, r.Storable) →
              let (l, d) := RegionLog.appendAll (log, s.directory) more
              ∃ l' d', l.rewrite d = (.ok l', d') ∧ l'.index = l.index ∧
                RegionLog.openFile d l.name = (.ok l, d) ∧
                RegionLog.openFile d' l.name = (.ok l', d')) := by
  obtain ⟨s, hafter, hkept⟩ := kept_run (∀ r ∈ requests, r.Storable) hfree hempty
    requests fun r hr hok => hok r hr
  refine ⟨s, hafter, fun name hsome => ?_, fun region log hlog => ?_⟩
  · obtain ⟨region, hname, hwaits | hdone⟩ := hkept.named hsome
    · exact absurd hwaits List.not_mem_nil
    · exact ⟨region, hname, hdone⟩
  · obtain ⟨hname, hfew, rs, hholds⟩ := hkept.log hlog
    refine ⟨RegionLog.bound_of_few hfew, fun hok => ⟨⟨rs, hname ▸ hholds.file, hholds.records hok,
      hholds.index hok⟩, fun more hmore => ?_⟩⟩
    obtain ⟨hlast, hsame, hothers⟩ := hholds.appendAll fun _ => hmore
    refine hlast.rewrite_opens hok ?_
    rw [hsame, hothers _ (hname ▸ FileName.rewritten_ne _ region)]
    exact hkept.beside _

/-- The logs of a backend that has them. -/
def logs? : Backend → Option LogStore
  | .file s => some s
  | _ => none

def plain : Entry := ⟨"r", "k", .string "v", 1, 1, none, false⟩

/-- The same key with a value that JSON cannot hold. -/
def boundless : Entry := { plain with value := .boundless }

/-- An infinite score makes a line that holds no record. The log counts it, who opens the file does
not, and a rewriting takes away what the file was opened as. -/
theorem boundless_lost :
    let found (d : Directory) : Except CacheError (Nat × List Entry) :=
      (RegionLog.openFile d "r.log").1.map fun l => (l.records, l.index.values)
    ∃ s log, after (.ofKind .missing .file) [.reopen, .save plain, .save boundless] = .file s ∧
      s.logs["r"]? = some log ∧ log.records = 2 ∧ log.index.values = [boundless] ∧
      found s.directory = .ok (1, [plain]) ∧
      ∃ l d, log.rewrite s.directory = (.ok l, d) ∧ found d = .ok (0, []) := by
  intro found
  have hfound {d : Directory} (hpresent : d.presence = .present) {serial : Nat}
      (rs : List LogRecord) (hfile : d.nodes["r.log"]? =
        some (.file serial (LogRecord.textOf rs).utf8Encode)) : found d =
        .ok ((LogRecord.ofText (LogRecord.textOf rs)).length,
          (LogRecord.replay (LogRecord.ofText (LogRecord.textOf rs))).values) := by
    simp only [found, RegionLog.openFile_lines hpresent hfile]
    rfl
  let saved := logs? (after (.ofKind .missing .file) [.reopen, .save plain, .save boundless])
  have hlog : (saved.bind (·.logs["r"]?)).map (fun log => (log.name, log.records, log.index.values)) =
      some ("r.log", 2, [boundless]) := by
    decide +kernel
  have hfile : saved.bind (·.directory.nodes["r.log"]?) =
      some (.file 0 (.empty ++ (LogRecord.put plain).line ++ (LogRecord.put boundless).line)) := by
    rfl
  obtain ⟨s, hafter, hkept⟩ := kept_run False (d := .missing) (by decide) rfl
    [.save plain, .save boundless] fun _ _ => False.elim
  have hsaved : saved = some s := congrArg logs? hafter
  rw [hsaved] at hlog hfile
  obtain ⟨log, hsome, hlog⟩ := Option.map_eq_some_iff.1 hlog
  simp only [Prod.mk.injEq] at hlog
  obtain ⟨hname, hrecords, hvalues⟩ := hlog
  obtain ⟨-, -, rs, hholds⟩ := hkept.log hsome
  refine ⟨s, log, hafter, hsome, hrecords, hvalues, ?_, ?_⟩
  · have htext : s.directory.nodes["r.log"]? =
        some (.file 0 (LogRecord.textOf [.put plain, .put boundless]).utf8Encode) := by
      rw [LogRecord.line_eq, LogRecord.line_eq, ByteArray.empty_append,
        ← List.utf8Encode_append] at hfile
      exact hfile
    exact (hfound hholds.present _ htext).trans (by decide +kernel)
  · obtain ⟨l, d, hrewrite, hsame, -, -, hagain, -⟩ :=
      hholds.rewrite (by rw [hname]; exact hkept.beside "r")
    have hfile := hagain.file
    rw [hsame, hname, hvalues] at hfile
    exact ⟨l, d, hrewrite, (hfound hagain.present _ hfile).trans (by decide +kernel)⟩

/-- Three records of one key, none of which is live any more. -/
theorem rewritten_in_time_expired :
    let requests : List Request := [.save ⟨"r", "k", .string "v", 1, 1, none, false⟩,
      .updateExpiry "r" "k" (some 5), .deleteExpired 5]
    ∃ s log, after (.ofKind .missing .file) (.reopen :: requests) = .file s ∧
      s.logs["r"]? = some log ∧ log.index.size = 0 ∧
      (∃ rs, s.directory.nodes[FileName.ofRegion "r"]? =
        some (.file log.serial (LogRecord.textOf rs).utf8Encode) ∧ rs.length = 3) ∧
      ∃ l' d', log.rewrite s.directory = (.ok l', d') ∧ l'.index.size = 0 ∧
        RegionLog.openFile d' log.name = (.ok l', d') := by
  intro requests
  have hstorable : ∀ r ∈ requests, r.Storable := by
    simp only [requests, List.forall_mem_cons, Storable]
    refine ⟨⟨trivial, by decide, by decide, nofun⟩, ?_, trivial, nofun⟩
    rintro t ⟨⟩
    decide
  have hcounts : ((logs? (after (.ofKind .missing .file) (.reopen :: requests))).bind
      (·.logs["r"]?)).map (fun log => (log.records, log.index.size)) = some (3, 0) := by
    decide +kernel
  obtain ⟨s, hafter, -, hlogs⟩ := rewritten_in_time (d := .missing) (by decide) rfl requests
  rw [hafter] at hcounts
  obtain ⟨log, hlog, hcounts⟩ := Option.map_eq_some_iff.1 hcounts
  obtain ⟨hrecords, hsize⟩ := Prod.mk.inj hcounts
  obtain ⟨-, hrest⟩ := hlogs "r" log hlog
  obtain ⟨⟨rs, hfile, hlength, -⟩, hrewrite⟩ := hrest hstorable
  obtain ⟨l', d', hdone, hindex, -, hopen⟩ := hrewrite [] nofun
  exact ⟨s, log, hafter, hlog, hsize, ⟨rs, hfile, hlength.trans hrecords⟩, l', d', hdone,
    hindex ▸ hsize, hopen⟩

end Request
end TierCache
