import TierCache.Proofs.Store.Keeping

/-!
Where the entries of a region are found again. The log of every region is a plain file of the
directory that no other region shares. A store opened anew takes the name of the region from it, unless
the region has none: a file called `.log` has no extension and is not looked at.
-/
namespace TierCache
open Std

/-- The logs that are opened from their files are those of regions with a name. -/
theorem LogStore.openAll_unnamed (s : LogStore) (names : List String) :
    (s.openAll names).2.logs[""]? = s.logs[""]? := by
  induction names generalizing s with
  | nil => rfl
  | cons name names ih =>
    rw [LogStore.openAll]
    split
    · exact ih s
    · rename_i region hregion
      have hne : region ≠ "" := fun heq => FileName.region?_ne_unnamed name (heq ▸ hregion)
      split
      · rfl
      · exact (ih _).trans ((Tree.get_insert _ _ _ _).trans (if_neg hne))

theorem LogStore.load_unnamed (d : Directory) : ((ofDirectory d).load).2.logs[""]? = none := by
  rw [LogStore.load]
  split
  · exact ExtTreeMap.getElem?_empty
  · split
    · exact ExtTreeMap.getElem?_empty
    · exact (openAll_unnamed _ _).trans ExtTreeMap.getElem?_empty

namespace Request

/-- Of a store whose logs are in order, the directory opened anew serves the entry that was saved last
and those of all other regions with a name, each under its own. -/
theorem found_after_save {ok : Prop} {s : LogStore} (h : s.Kept ok []) {e : Entry}
    (he : ok → e.Storable) (hregion : e.region ≠ "") :
    ∃ saved found, s.save e = (.ok (), saved) ∧
      (saved.directory.nodes[FileName.ofRegion e.region]?).isSome ∧
      (LogStore.ofDirectory saved.directory).load = (.ok (), found) ∧
      (found.logs[e.region]?).map (·.name) = some (FileName.ofRegion e.region) ∧
      (ok → (found.index e.region)[e.key]? = some e ∧
        ∀ other, other ≠ "" → found.index other = saved.index other) := by
  obtain ⟨saved, hsave, hkept, log, hlog, hentry⟩ := h.save he
  obtain ⟨found, hopen, hagain, hfound⟩ := hkept.reopen
  obtain ⟨hname, -, rs, hholds⟩ := hkept.log hlog
  refine ⟨saved, found, hsave, ?_, hopen, ?_, fun hok => ⟨?_, fun other hother => ?_⟩⟩
  · rw [← hname, hholds.file]
    rfl
  · have hsome : (found.logs[e.region]?).isSome := by
      rw [(hfound _ hregion).1, hlog]
      rfl
    obtain ⟨again, hlogAgain⟩ := Option.isSome_iff_exists.1 hsome
    rw [hlogAgain, Option.map_some, (hagain.log hlogAgain).1]
  · rw [(hfound _ hregion).2 hok, LogStore.index_of_log hlog, hentry]
  · exact (hfound other hother).2 hok

/-- Every region's log has a plain name in the directory, which is that of no other region. If the
region has a name itself, the name of the file leads back to it; then a save succeeds after whatever was
asked of a store that started over a directory without files, and a store opened anew on that directory
has the region and, of all that JSON can hold, what was saved to it and to the others. -/
theorem found_by_name (region : String) :
    (∀ c ∈ (FileName.ofRegion region).toList, FileName.Plain c) ∧
      (FileName.ofRegion region ≠ "." ∧ FileName.ofRegion region ≠ "..") ∧
      (∀ other, FileName.ofRegion other = FileName.ofRegion region → other = region) ∧
      (region ≠ "" → FileName.region? (FileName.ofRegion region) = some region ∧
        ∀ d : Directory, d.presence ≠ .blocked → d.nodes = ∅ →
          ∀ (requests : List Request) (e : Entry), e.region = region →
            ∃ s saved found, after (.ofKind d .file) (.reopen :: requests) = .file s ∧
              s.save e = (.ok (), saved) ∧
              (saved.directory.nodes[FileName.ofRegion region]?).isSome ∧
              (LogStore.ofDirectory saved.directory).load = (.ok (), found) ∧
              (found.logs[region]?).map (·.name) = some (FileName.ofRegion region) ∧
              ((∀ r ∈ requests, r.Storable) → e.Storable →
                (found.index region)[e.key]? = some e ∧
                  ∀ other, other ≠ "" → found.index other = saved.index other)) := by
  refine ⟨FileName.plain_ofRegion region, FileName.ofRegion_ne_dots region,
    fun _ => FileName.ofRegion_inj, fun hregion => ⟨FileName.region?_ofRegion hregion, ?_⟩⟩
  rintro d hfree hempty requests e rfl
  obtain ⟨s, hafter, hkept⟩ := kept_run ((∀ r ∈ requests, r.Storable) ∧ e.Storable) hfree hempty
    requests fun r hr hok => hok.1 r hr
  obtain ⟨saved, found, hsave, hfile, hopen, hlog, hserved⟩ :=
    found_after_save hkept And.right hregion
  exact ⟨s, saved, found, hafter, hsave, hfile, hopen, hlog,
    fun hrequests he => hserved ⟨hrequests, he⟩⟩

theorem found_by_name_escaped :
    let e : Entry := ⟨"a/b c", "k", .string "v", 1, 1, none, false⟩
    FileName.ofRegion "a/b c" = "a%2Fb%20c.log" ∧
      ∃ s saved found, after (.ofKind .missing .file) [.reopen] = .file s ∧
        s.save e = (.ok (), saved) ∧
        (LogStore.ofDirectory saved.directory).load = (.ok (), found) ∧
        (found.index "a/b c")["k"]? = some e := by
  intro e
  obtain ⟨-, -, -, hnamed⟩ := found_by_name "a/b c"
  obtain ⟨-, hserved⟩ := hnamed (by decide)
  obtain ⟨s, saved, found, hafter, hsave, -, hopen, -, hentry⟩ :=
    hserved .missing (by decide) rfl [] e rfl
  have he : e.Storable := ⟨trivial, by decide, by decide, nofun⟩
  exact ⟨by decide, s, saved, found, hafter, hsave, hopen, (hentry nofun he).1⟩

/-- What is saved to the region without a name is served until the store is opened anew, and its file
is still there then, but nothing of it is found. -/
theorem unnamed_lost :
    let e : Entry := ⟨"", "k", .string "v", 1, 1, none, false⟩
    ∃ s saved found, after (.ofKind .missing .file) [.reopen] = .file s ∧
      s.save e = (.ok (), saved) ∧ (saved.index "")["k"]? = some e ∧
      (saved.directory.nodes[FileName.ofRegion ""]?).isSome ∧
      (LogStore.ofDirectory saved.directory).load = (.ok (), found) ∧
      (found.logs[""]?).isNone ∧ (found.index "")["k"]? = none := by
  intro e
  obtain ⟨s, hafter, hkept⟩ := kept_run True (d := .missing) (by decide) rfl [] nofun
  obtain ⟨saved, hsave, hsaved, log, hlog, hentry⟩ := hkept.save (e := e) fun _ =>
    ⟨trivial, by decide, by decide, nofun⟩
  obtain ⟨found, hopen, -, -⟩ := hsaved.reopen
  obtain ⟨hname, -, rs, hholds⟩ := hsaved.log hlog
  have hnone : found.logs[""]? = none := by
    have hload := LogStore.load_unnamed saved.directory
    rwa [hopen] at hload
  refine ⟨s, saved, found, hafter, hsave, ?_, ?_, hopen, ?_, ?_⟩
  · rw [LogStore.index_of_log hlog]
    exact hentry
  · have hfile := hholds.file
    rw [hname] at hfile
    exact Option.isSome_of_eq_some hfile
  · rw [hnone]
    rfl
  · rw [LogStore.index_of_none hnone]
    exact ExtTreeMap.getElem?_empty

end Request
end TierCache
