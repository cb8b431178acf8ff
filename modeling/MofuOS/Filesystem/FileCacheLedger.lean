import MofuOS.Filesystem.FileCacheEvict
import MofuOS.Filesystem.FileCacheAccount

/-! Making room on paper. What ensure_space does depends on the lengths and scores of the files,
on the push offset and on the count of used bytes, which a ledger keeps, and on the answers of the
disk to the write-backs. So whether it succeeds can be read off the state in which it is called. -/
namespace MofuOS.Filesystem.FileCache
open Lib
open Prog (liftO)
open FiniteMap (get insert remove iter modify map)
variable {M : Type → Type} [FiniteMap FileNodeHandle M] {D W : Type} {p : Profile} {s t u : FileCache M D}
  {id keep : FileNodeHandle} {f : CachedFile} {max needed : Nat} {tick : UInt64}

/-- What making room depends on. Where the files lie does not matter. -/
structure Ledger (M : Type → Type) (W : Type) where
  files : M CachedFile
  push : Nat
  used : Nat
  disk : W

/-- The ledger of a state. -/
def ledger (s : FileCache M D) (w : W) : Ledger M W := ⟨s.files,s.arenaPushOffset,s.currentMemoryUsed,w⟩

section Passes
variable (saved : FileNodeHandle → Bool → W → W → Prop) (p : Profile) (tick : UInt64) (max needed : Nat) (keep : FileNodeHandle)

/-- One pass: there is too little room, and the file with the greatest score, which has bytes, is
saved if it is dirty and goes. The number is the estimate of what is used then. -/
inductive Drops (L : Ledger M W) : Nat → Ledger M W → Prop
  | mk {id : FileNodeHandle} {f : CachedFile} {top used sum rest : Nat} {w : W} (adds : usizeAdd p L.push needed = .ok top)
      (tight : max < top) (first : foremost tick keep (iter L.files) = some (id,f)) (named : id ≠ invalidNodeHandle)
      (bytes : f.len ≠ 0) (saves : saved id f.isDirty L.disk w) (uncounts : usizeSub p L.used f.len = .ok used)
      (estimates : usizeAdd p used needed = .ok sum) (subtracts : usizeSub p sum f.len = .ok rest) :
      Drops L rest ⟨remove L.files id,L.push,used,w⟩

/-- Files go until there is room. What is left is packed whenever the estimate comes down to the capacity. -/
inductive Frees : Ledger M W → Ledger M W → Prop
  | room {L : Ledger M W} {top : Nat} (adds : usizeAdd p L.push needed = .ok top) (fits : top ≤ max) : Frees L L
  | packed {L L' L'' : Ledger M W} {rest : Nat} (drops : Drops saved p tick max needed keep L rest L') (fits : rest ≤ max)
      (next : Frees { L' with push := usedTotal L'.files } L'') : Frees L L''
  | left {L L' L'' : Ledger M W} {rest : Nat} (drops : Drops saved p tick max needed keep L rest L') (tight : max < rest)
      (next : Frees L' L'') : Frees L L''

/-- What is left in the cache when the first compaction comes. -/
inductive FirstPack : Ledger M W → Ledger M W → Prop
  | now {L L' : Ledger M W} {rest : Nat} (drops : Drops saved p tick max needed keep L rest L') (fits : rest ≤ max) :
      FirstPack L L'
  | later {L L' L'' : Ledger M W} {rest : Nat} (drops : Drops saved p tick max needed keep L rest L') (tight : max < rest)
      (next : FirstPack L' L'') : FirstPack L L''

end Passes

section Settled
variable {m m' : M CachedFile}

private theorem score_settled (f : CachedFile) : score tick f.settled = score tick f := rfl

private theorem foremost_map (l : List (FileNodeHandle × CachedFile)) :
    foremost tick keep (l.map fun e => (e.1,e.2.settled)) = (foremost tick keep l).map fun e => (e.1,e.2.settled) := by
  simp only [foremost,List.find?_map,List.all_map,Function.comp_def,score_settled]
  rfl

/-- The scan does not see where the files lie. -/
theorem foremost_of_settled (h : map CachedFile.settled m = map CachedFile.settled m')
    (hf : foremost tick keep (iter m) = some (id,f)) :
    ∃ g, foremost tick keep (iter m') = some (id,g) ∧ g.len = f.len ∧ g.isDirty = f.isDirty := by
  have hsame := congrArg (fun m => foremost tick keep (iter m)) h
  simp only [FiniteMap.iter_map,foremost_map,hf,Option.map_some] at hsame
  obtain ⟨⟨id',g⟩,hg,he⟩ := Option.map_eq_some_iff.mp hsame.symm
  simp only [CachedFile.settled,Prod.mk.injEq,CachedFile.mk.injEq] at he
  obtain ⟨rfl,_,hlen,_,hdirty,_⟩ := he
  exact ⟨g,hg,hlen,hdirty⟩

theorem usedTotal_of_settled (h : map CachedFile.settled m = map CachedFile.settled m') : usedTotal m = usedTotal m' := by
  have hsame := congrArg usedTotal h
  simp only [usedTotal,FiniteMap.sumOf,FiniteMap.iter_map,List.map_map] at hsame
  exact hsame

theorem length_iter_of_settled (h : map CachedFile.settled m = map CachedFile.settled m') :
    (iter m).length = (iter m').length := by
  have hsame := congrArg (fun m => (iter m).length) h
  simpa only [FiniteMap.iter_map,List.length_map] using hsame

end Settled

variable [CacheFilesystemDriver D] {R : FileCache M D → W → Prop} {saved : FileNodeHandle → Bool → W → W → Prop}
  {L L' L'' : Ledger M W} {rest : Nat}

/-- Files go, and nothing else happens. -/
abbrev Evictions (p : Profile) (keep : FileNodeHandle) : FileCache M D → FileCache M D → Prop :=
  Relation.ReflTransGen fun s t => ∃ id f, Evicted p keep id f s t

/-- The disk of the ledger answers as the driver does. -/
structure Tracks (R : FileCache M D → W → Prop) (saved : FileNodeHandle → Bool → W → W → Prop) (p : Profile)
    (keep : FileNodeHandle) : Prop where
  packed : ∀ {s t w}, R s w → Bounds s → Packed keep s t → R t w
  evicted : ∀ {s t id f w}, R s w → Bounds s → Evicted p keep id f s t → ∃ w', saved id f.isDirty w w'
  saves : ∀ {s id f w w'}, R s w → Bounds s → get s.files id = some f → id ≠ keep → saved id f.isDirty w w' →
    WritesBack s id f ∧ ∀ t, Evicted p keep id f s t → R t w'

/-- The ledger is that of the state. -/
structure Booked (R : FileCache M D → W → Prop) (tick : UInt64) (max : Nat) (L : Ledger M W) (s : FileCache M D) : Prop where
  covered : Covered s
  tick : s.accessTick = tick
  max : s.maxMemory = max
  files : map CachedFile.settled L.files = map CachedFile.settled s.files
  push : L.push = s.arenaPushOffset
  used : L.used = s.currentMemoryUsed
  disk : R s L.disk

omit [CacheFilesystemDriver D] in
theorem booked_ledger {w : W} (hc : Covered s) (h : R s w) : Booked R s.accessTick s.maxMemory (ledger s w) s :=
  ⟨hc,rfl,rfl,rfl,rfl,rfl,h⟩

private theorem Booked.evicted (hL : Booked R tick max L s) {g : CachedFile} {used : Nat} {w : W}
    (out : Evicted p keep id g s t) (hused : usizeSub p s.currentMemoryUsed g.len = .ok used) (hw : R t w) :
    Booked R tick max ⟨remove L.files id,L.push,used,w⟩ t := by
  have hcount : used = t.currentMemoryUsed := Except.ok.inj (hused.symm.trans out.used)
  have hc : Covered t := (SpaceStep.evicted out : SpaceStep p keep s t).covered hL.covered
  obtain ⟨d,events,used',_,rfl⟩ := out.out
  refine ⟨hc,hL.tick,hL.max,?_,hL.push,hcount,hw⟩
  rw [FiniteMap.map_remove,FiniteMap.map_remove,hL.files]

omit [CacheFilesystemDriver D] in
private theorem Booked.packed (hL : Booked R tick max L s) (out : Packed keep s t) (hw : R t L.disk) :
    Booked R tick max { L with push := usedTotal L.files } t := by
  have hfiles : map CachedFile.settled L.files = map CachedFile.settled t.files := hL.files.trans out.moved.settled.symm
  exact ⟨out.covered hL.covered.bounds,out.moved.tick.trans hL.tick,out.moved.max.trans hL.max,hfiles,
    by rw [usedTotal_of_settled hfiles,out.push],hL.used.trans out.moved.used.symm,hw⟩

theorem Drops.shorter (h : Drops saved p tick max needed keep L rest L') :
    (iter L'.files).length < (iter L.files).length := by
  cases h with
  | @mk id f _ _ _ _ _ _ _ first =>
    apply FiniteMap.length_remove_lt
    rw [(FiniteMap.mem_iter ..).mp (foremost_eq_some first).1]
    exact Option.some_ne_none f

/-- A file goes before anything is packed. -/
theorem FirstPack.drops (h : FirstPack saved p tick max needed keep L L') :
    ∃ rest L₁, Drops saved p tick max needed keep L rest L₁ := by
  cases h with
  | now drops _ => exact ⟨_,_,drops⟩
  | later drops _ _ => exact ⟨_,_,drops⟩

section Loop
variable (hR : Tracks R saved p keep) (hL : Booked R tick max L s)
include hR hL

/-- A pass of the ledger is a pass of the loop. -/
theorem Drops.runs (h : Drops saved p tick max needed keep L rest L') (fuel : Nat) :
    ∃ id f u, Evicted p keep id f s u ∧ L'.files = remove L.files id ∧ Booked R tick max L' u ∧
      if rest ≤ max then ∃ v, Packed keep u v ∧ Booked R tick max { L' with push := usedTotal L'.files } v ∧
        ensureSpaceLoop p needed keep true (fuel + 1) s = ensureSpaceLoop p needed keep true fuel v
      else ensureSpaceLoop p needed keep true (fuel + 1) s = ensureSpaceLoop p needed keep true fuel u := by
  cases h with
  | @mk id f top used sum _ w adds tight first named bytes saves uncounts estimates subtracts =>
    have hb := hL.covered.bounds
    obtain ⟨g,hg,hlen,hdirty⟩ := foremost_of_settled hL.files first
    rw [← hL.tick] at hg
    obtain ⟨hmem,hne⟩ := foremost_eq_some hg
    have hget : get s.files id = some g := (FiniteMap.mem_iter ..).mp hmem
    rw [hL.used,← hlen] at uncounts
    rw [← hdirty] at saves
    rw [hL.push] at adds
    obtain ⟨hback,hnext⟩ := hR.saves hL.disk hb hget hne saves
    obtain ⟨u,hev,out⟩ := evicts_foremost hb hg ⟨named,hback,used,uncounts⟩
    have hLu := hL.evicted out uncounts (hnext u out)
    have hbu := hLu.covered.bounds
    refine ⟨id,g,u,out,rfl,hLu,?_⟩
    rw [hlen] at hev
    obtain rfl : used = u.currentMemoryUsed := hLu.used
    have hloop : ensureSpaceLoop p needed keep true (fuel + 1) s =
        (if rest ≤ u.maxMemory then compact p keep >>= fun _ => ensureSpaceLoop p needed keep true fuel
          else ensureSpaceLoop p needed keep true fuel) u := by
      simp only [ensureSpaceLoop,Prog.run_get_bind,adds,Prog.run_liftO_ok_bind,gt_iff_lt,hL.max,if_pos tight]
      rw [Prog.run_bind_ok hev]
      simp only [ne_eq,bytes,not_false_eq_true,if_true,Prog.run_get_bind,estimates,Prog.run_liftO_ok_bind,subtracts]
    rw [hloop,hLu.max]
    split_ifs with hfit
    · obtain ⟨v,hpack⟩ := hLu.covered.compact_runs p keep
      have hpacked := (compact_returns hbu.inArena hpack).2
      exact ⟨v,hpacked,hLu.packed hpacked (hR.packed hLu.disk hbu hpacked),Prog.run_bind_ok hpack⟩
    · rfl

/-- Where the ledger has no pass to make, the loop ends: there is room, or the eviction frees nothing. -/
theorem loop_stops {fuel : Nat} {r : Except FileSystemError Bool}
    (hn : ∀ rest L', ¬ Drops saved p tick max needed keep L rest L')
    (h : ensureSpaceLoop p needed keep true (fuel + 1) s = .ok (r,t)) :
    (∃ top, usizeAdd p L.push needed = .ok top ∧ top ≤ max ∧ r = .ok true ∧ t = s) ∨
      r = .ok false ∧ (t = s ∨ (∃ id f e d, get s.files id = some f ∧ f.isDirty = true ∧
        CacheFilesystemDriver.writeFile id 0 (s.bytesOf f) s.driver = .ok (.error e,d) ∧ t = { s with driver := d }) ∨
        ∃ id f, Evicted p keep id f s t) := by
  have hb := hL.covered.bounds
  simp only [ensureSpaceLoop,Prog.run_get_bind] at h
  obtain ⟨top,htop,h⟩ := Prog.liftO_bind_returns h
  rw [← hL.push] at htop
  rw [hL.max] at h
  split_ifs at h with hfull
  swap
  · cases h
    exact .inl ⟨top,htop,Nat.not_lt.mp hfull,rfl,rfl⟩
  refine .inr ?_
  obtain ⟨e,he,_⟩ | ⟨n,u,hev,h⟩ := Prog.bind_returns h
  · obtain ⟨hr,_⟩ | ⟨hr,_⟩ | ⟨_,_,hr,_⟩ := evictOneKeepAlive_returns hb he <;> cases hr
  split_ifs at h with hn0
  swap
  · cases h
    refine ⟨rfl,?_⟩
    obtain ⟨_,rfl⟩ | ⟨_,id,f,e,d,hf,_,hd,hw,rfl⟩ | ⟨id,f,_,out,_⟩ := evictOneKeepAlive_returns hb hev
    · exact .inl rfl
    · exact .inr (.inl ⟨id,f,e,d,hf,hd,hw,rfl⟩)
    · exact .inr (.inr ⟨id,f,out⟩)
  -- an eviction that frees bytes is a pass of the ledger
  simp only [Prog.run_get_bind] at h
  obtain ⟨sum,hsum,h⟩ := Prog.liftO_bind_returns h
  obtain ⟨rest,hrest,_⟩ := Prog.liftO_bind_returns h
  obtain ⟨_,hr⟩ | ⟨id,f,hf,hl,out,hr⟩ := evicted_foremost hb hev
  · exact absurd (Except.ok.inj hr) hn0
  obtain rfl := Except.ok.inj hr
  rw [hL.tick] at hf
  obtain ⟨g,hg,hlen,hdirty⟩ := foremost_of_settled hL.files.symm hf
  obtain ⟨w,hw⟩ := hR.evicted hL.disk hb out
  have hused := out.used
  rw [← hL.used,← hlen] at hused
  rw [← hlen] at hn0 hrest
  rw [← hdirty] at hw
  exact absurd (.mk htop hfull hg hl.1 hn0 hw hused hsum hrest) (hn _ _)

/-- The loop lets the files of the ledger go and makes its first compaction. -/
theorem FirstPack.loop_runs {fuel : Nat} {r : Except FileSystemError Bool} (h : FirstPack saved p tick max needed keep L L')
    (hfiles : L.files = s.files) (hrun : ensureSpaceLoop p needed keep true fuel s = .ok (r,t)) :
    ∃ u v, Evictions p keep s u ∧ u.files = L'.files ∧ u.arena = s.arena ∧ Packed keep u v ∧ SpaceSteps p keep v t := by
  induction h generalizing s fuel with
  | @now L L' rest drops fits =>
    obtain _ | fuel := fuel
    · cases hrun
    obtain ⟨id,f,u,out,hleft,hLu,hcase⟩ := drops.runs hR hL fuel
    rw [if_pos fits] at hcase
    obtain ⟨v,hpacked,hLv,heq⟩ := hcase
    rw [heq] at hrun
    refine ⟨u,v,.single ⟨id,f,out⟩,?_,congrArg Arena.cells out.arena,hpacked,
      (ensureSpaceLoop_returns hLv.covered.bounds hrun).1⟩
    rw [out.files,hleft,hfiles]
  | @later L L' L'' rest drops tight next ih =>
    obtain _ | fuel := fuel
    · cases hrun
    obtain ⟨id,f,u,out,hleft,hLu,hcase⟩ := drops.runs hR hL fuel
    rw [if_neg (Nat.not_le.mpr tight)] at hcase
    rw [hcase] at hrun
    obtain ⟨v,w,hsteps,hv,harena,hpacked,hrest⟩ := ih hLu (by rw [out.files,hleft,hfiles]) hrun
    exact ⟨v,w,.head ⟨id,f,out⟩ hsteps,hv,harena.trans (congrArg Arena.cells out.arena),hpacked,hrest⟩

/-- Where the ledger has no compaction the loop makes none. -/
theorem loop_unpacked {fuel : Nat} {r : Except FileSystemError Bool}
    (hno : ∀ L', ¬ FirstPack saved p tick max needed keep L L')
    (hrun : ensureSpaceLoop p needed keep true fuel s = .ok (r,t)) :
    ∃ u, Evictions p keep s u ∧ (t = u ∨ ∃ id f e d, get u.files id = some f ∧ f.isDirty = true ∧
      CacheFilesystemDriver.writeFile id 0 (u.bytesOf f) u.driver = .ok (.error e,d) ∧ t = { u with driver := d }) := by
  induction fuel generalizing L s with
  | zero => cases hrun
  | succ fuel ih =>
    by_cases hd : ∃ rest L', Drops saved p tick max needed keep L rest L'
    · obtain ⟨rest,L',hd⟩ := hd
      obtain ⟨id,f,u,out,_,hLu,hcase⟩ := hd.runs hR hL fuel
      split_ifs at hcase with hfit
      · exact absurd (.now hd hfit) (hno _)
      rw [hcase] at hrun
      obtain ⟨v,hsteps,hv⟩ := ih hLu (fun L'' hpack => hno L'' (.later hd (Nat.not_le.mp hfit) hpack)) hrun
      exact ⟨v,.head ⟨id,f,out⟩ hsteps,hv⟩
    · simp only [not_exists] at hd
      obtain ⟨_,_,_,_,rfl⟩ | ⟨_,rfl | hrefused | ⟨id,f,out⟩⟩ := loop_stops hR hL hd hrun
      · exact ⟨_,.refl,.inl rfl⟩
      · exact ⟨_,.refl,.inl rfl⟩
      · exact ⟨s,.refl,.inr hrefused⟩
      · exact ⟨t,.single ⟨id,f,out⟩,.inl rfl⟩

theorem frees_of_loop {fuel : Nat} (h : ensureSpaceLoop p needed keep true fuel s = .ok (.ok true,t)) :
    ∃ L', Frees saved p tick max needed keep L L' ∧ Booked R tick max L' t := by
  induction fuel generalizing L s with
  | zero => cases h
  | succ fuel ih =>
    by_cases hd : ∃ rest L', Drops saved p tick max needed keep L rest L'
    · obtain ⟨rest,L',hd⟩ := hd
      obtain ⟨id,f,u,_,_,hLu,hcase⟩ := hd.runs hR hL fuel
      split_ifs at hcase with hfit
      · obtain ⟨v,_,hLv,heq⟩ := hcase
        obtain ⟨L'',hfrees,hLt⟩ := ih hLv (heq ▸ h)
        exact ⟨L'',.packed hd hfit hfrees,hLt⟩
      · obtain ⟨L'',hfrees,hLt⟩ := ih hLu (hcase ▸ h)
        exact ⟨L'',.left hd (Nat.not_le.mp hfit) hfrees,hLt⟩
    · simp only [not_exists] at hd
      obtain ⟨top,htop,hle,_,rfl⟩ | ⟨hr,_⟩ := loop_stops hR hL hd h
      · exact ⟨L,.room htop hle,hL⟩
      · cases hr

omit hL in
theorem Frees.loop_runs {fuel : Nat} (h : Frees saved p tick max needed keep L L') (hL : Booked R tick max L s)
    (hfuel : (iter L.files).length < fuel) :
    ∃ t, ensureSpaceLoop p needed keep true fuel s = .ok (.ok true,t) ∧ Booked R tick max L' t := by
  induction h generalizing s fuel with
  | room adds fits =>
    obtain ⟨fuel,rfl⟩ := Nat.exists_eq_add_one_of_ne_zero (Nat.ne_zero_of_lt hfuel)
    rw [hL.push] at adds
    refine ⟨s,?_,hL⟩
    simp only [ensureSpaceLoop,Prog.run_get_bind,adds,Prog.run_liftO_ok_bind,gt_iff_lt,hL.max,if_neg (Nat.not_lt.mpr fits)]
    rfl
  | packed drops fits _ ih =>
    obtain ⟨fuel,rfl⟩ := Nat.exists_eq_add_one_of_ne_zero (Nat.ne_zero_of_lt hfuel)
    obtain ⟨_,_,u,_,_,_,hcase⟩ := drops.runs hR hL fuel
    rw [if_pos fits] at hcase
    obtain ⟨v,_,hLv,heq⟩ := hcase
    rw [heq]
    exact ih hLv (Nat.lt_of_lt_of_le drops.shorter (Nat.lt_succ_iff.mp hfuel))
  | left drops tight _ ih =>
    obtain ⟨fuel,rfl⟩ := Nat.exists_eq_add_one_of_ne_zero (Nat.ne_zero_of_lt hfuel)
    obtain ⟨_,_,u,_,_,hLu,hcase⟩ := drops.runs hR hL fuel
    rw [if_neg (Nat.not_le.mpr tight)] at hcase
    rw [hcase]
    exact ih hLu (Nat.lt_of_lt_of_le drops.shorter (Nat.lt_succ_iff.mp hfuel))

/-- ensure_space succeeds exactly when the ledger finds room, and leaves its books. -/
theorem ensureSpace_frees (h : ensureSpace p needed keep true s = .ok (.ok true,t)) :
    ∃ L', Frees saved p tick max needed keep L L' ∧ Booked R tick max L' t := by
  simp only [ensureSpace,Prog.run_get_bind] at h
  exact frees_of_loop hR hL h

theorem Frees.runs (h : Frees saved p tick max needed keep L L') :
    ∃ t, ensureSpace p needed keep true s = .ok (.ok true,t) ∧ Booked R tick max L' t := by
  simp only [ensureSpace,Prog.run_get_bind]
  refine h.loop_runs hR hL ?_
  rw [length_iter_of_settled hL.files]
  exact Nat.lt_succ_self _

end Loop
end MofuOS.Filesystem.FileCache
