import LibMp.Machine

/- The regions of the pool (mp.c): `allocate_requests`, `get_request`,
   `release_mp_request`, and the loop of `mp_finalize` that frees the regions.

   A history records what a run of the pool has done: which requests are in the
   hands of callers, which ever were, and every region that was obtained. The
   requests are always accounted for: free or live, they are those of the
   regions. The list of regions is not: it never gets past the first one. -/
namespace LibMp

/-- The requests of the region that starts at `r`. -/
def requestsOf (r : Ptr) : List Ptr := List.range' r mpRequestLimit

/-- The loop of `mp_finalize` over `mem_region_list`; `freed` are the regions it
has freed. -/
def freeRegions (freed : List Ptr) : List Ptr → List Ptr
  | [] => freed
  | region :: next => freeRegions (freed ++ [region]) next

theorem freeRegions_eq (freed l : List Ptr) : freeRegions freed l = freed ++ l := by
  induction l generalizing freed with
  | nil => exact (List.append_nil freed).symm
  | cons r l ih => rw [freeRegions, ih, List.append_assoc, List.singleton_append]

/-- What a run of the pool has done so far. -/
structure PoolHistory where
  /-- handed out and not put back -/
  live : List Ptr := []
  /-- ever handed out -/
  handed : List Ptr := []
  /-- every region obtained, by its first request -/
  regions : List Ptr := [0]
  /-- how many requests were live at each `get_request` -/
  atGets : List Nat := []

/-- The runs of `get_request` and `release_mp_request` after `mp_init`; a request
is put back by who has it. -/
inductive PoolRun : World → PoolHistory → Prop where
  | init : PoolRun World.init {}
  | get {w h tape p s'} : PoolRun w h → getRequest ⟨w, tape⟩ = (.ok p, s') →
      PoolRun s'.w { live := p :: h.live, handed := p :: h.handed,
                     regions := if w.mpRequestFreeList = none then h.regions ++ [w.frontier] else h.regions,
                     atGets := h.atGets ++ [h.live.length] }
  | release {w h tape p s'} : PoolRun w h → p ∈ h.live → releaseMpRequest p ⟨w, tape⟩ = (.ok (), s') →
      PoolRun s'.w { h with live := h.live.erase p }

/-- The region list has every region once, each request handed out is of one
region, the free and the live requests are those of the regions, and
`mp_finalize` frees every region once. -/
structure Accounted (w : World) (h : PoolHistory) : Prop where
  once : h.regions.Nodup
  listed : w.memRegionList.Perm h.regions
  region : ∀ p ∈ h.handed, ∃! r, r ∈ h.regions ∧ p ∈ requestsOf r
  requests : ∃ fl, FreeList w fl ∧ (fl ++ h.live).Perm (h.regions.flatMap requestsOf)
  freed : (freeRegions [] w.memRegionList).Perm h.regions

/-! ## The invariant -/

/-- After `n` regions: the free requests are `fl`, and the list has the first
region only. -/
structure PoolInv (w : World) (h : PoolHistory) (fl : List Ptr) (n : Nat) : Prop where
  free : FreeList w fl
  regions : h.regions = (List.range n).map (mpRequestLimit * ·)
  frontier : w.frontier = mpRequestLimit * n
  requests : (fl ++ h.live).Perm (List.range w.frontier)
  handed : ∀ p ∈ h.handed, p < w.frontier
  listed : w.memRegionList = [0]
  pos : 0 < n

namespace PoolInv
variable {w : World} {h : PoolHistory} {fl : List Ptr} {n : Nat}

theorem nodup (hi : PoolInv w h fl n) : (fl ++ h.live).Nodup := hi.requests.nodup_iff.mpr List.nodup_range

theorem length_eq (hi : PoolInv w h fl n) : fl.length + h.live.length = mpRequestLimit * n := by
  rw [← List.length_append, hi.requests.length_eq, List.length_range, hi.frontier]

theorem init : PoolInv World.init {} (List.range' 0 mpRequestLimit) 1 where
  free := freeList_allocate World.empty
  regions := rfl
  frontier := rfl
  requests := by
    rw [List.append_nil, ← List.range_eq_range']
    exact .refl _
  handed := fun p hp => by cases hp
  listed := rfl
  pos := Nat.one_pos

/-- The first free request is handed out. -/
theorem pop {p : Ptr} (hi : PoolInv w h (p :: fl) n) (atGets : List Nat) :
    PoolInv (w.popFree p) ⟨p :: h.live, p :: h.handed, h.regions, atGets⟩ fl n where
  free := by
    have hnot : p ∉ fl := (List.nodup_cons.mp hi.nodup.of_append_left).1
    refine Linked.frame (Linked.cons_iff.mp hi.free).2 ?_
    intro q hq
    have hne : q ≠ p := fun heq => hnot (heq ▸ hq)
    simp [World.popFree, hne]
  regions := hi.regions
  frontier := hi.frontier
  requests := List.perm_middle.trans hi.requests
  handed q hq := by
    rcases List.mem_cons.mp hq with rfl | hq
    · exact List.mem_range.mp (hi.requests.subset (by simp))
    · exact hi.handed q hq
  listed := hi.listed
  pos := hi.pos

/-- With no request free a new region is obtained; the list of regions is not
empty, so it stays as it is. -/
theorem allocate (hi : PoolInv w h [] n) :
    PoolInv w.allocateRequests { h with regions := h.regions ++ [w.frontier] } (requestsOf w.frontier) (n + 1) where
  free := freeList_allocate w
  regions := by
    rw [hi.regions, hi.frontier, List.range_succ, List.map_append, List.map_singleton]
  frontier := by
    show w.frontier + mpRequestLimit = _
    rw [hi.frontier, Nat.mul_succ]
  requests := by
    have hlive : h.live.Perm (List.range w.frontier) := hi.requests
    show (requestsOf w.frontier ++ h.live).Perm (List.range (w.frontier + mpRequestLimit))
    rw [List.range_add, ← List.range'_eq_map_range]
    exact List.perm_append_comm.trans (hlive.append_right _)
  handed q hq := Nat.lt_of_lt_of_le (hi.handed q hq) (Nat.le_add_right _ _)
  listed := by simp [World.allocateRequests, hi.listed]
  pos := Nat.succ_pos n

/-- A request is put back. -/
theorem release {p : Ptr} (hi : PoolInv w h fl n) (hp : p ∈ h.live) :
    PoolInv (w.release p) { h with live := h.live.erase p } (p :: fl) n where
  free := hi.free.release fun hm => List.disjoint_of_nodup_append hi.nodup hm hp
  regions := hi.regions
  frontier := hi.frontier
  requests := by
    have hback : (p :: (fl ++ h.live.erase p)).Perm (fl ++ h.live) :=
      List.perm_middle.symm.trans ((List.perm_cons_erase hp).symm.append_left fl)
    exact hback.trans hi.requests
  handed := hi.handed
  listed := hi.listed
  pos := hi.pos

/-- One `get_request`; there is a second region once all requests of the first
were live and one more was asked for. -/
theorem get (hi : PoolInv w h fl n) (hone : n = 1 ↔ ∀ k ∈ h.atGets, k < mpRequestLimit)
    {tape : List Ans} {p : Ptr} {s' : Sys} (hget : getRequest ⟨w, tape⟩ = (.ok p, s')) :
    ∃ fl' n',
      PoolInv s'.w ⟨p :: h.live, p :: h.handed,
        if w.mpRequestFreeList = none then h.regions ++ [w.frontier] else h.regions, h.atGets ++ [h.live.length]⟩ fl' n' ∧
      (n' = 1 ↔ ∀ k ∈ h.atGets ++ [h.live.length], k < mpRequestLimit) := by
  rw [getRequest_run] at hget
  cases hget
  have hlen := hi.length_eq
  by_cases hnone : w.mpRequestFreeList = none
  · -- all requests are live
    have hrefill : w.refill = w.allocateRequests := by simp [World.refill, hnone]
    have hnil : fl = [] := by
      have hfree := hi.free
      unfold FreeList at hfree
      rw [hnone] at hfree
      exact hfree.eq_nil
    subst hnil
    have hnew := hi.allocate
    rw [← hrefill] at hnew
    obtain ⟨fl', hfl⟩ := hnew.free.cons_of_refill
    rw [hfl] at hnew
    refine ⟨fl', n + 1, ?_, ?_⟩
    · simp only [hnone, if_true]
      exact hnew.pop _
    · constructor
      · intro h1
        exact absurd (Nat.succ.inj h1) (Nat.ne_of_gt hi.pos)
      · intro hall
        have hlt := hall h.live.length (by simp)
        rw [List.length_nil, Nat.zero_add] at hlen
        have hle := Nat.le_mul_of_pos_right mpRequestLimit hi.pos
        omega
  · have hrefill : w.refill = w := by simp [World.refill, hnone]
    have hfree := hi.free
    rw [← hrefill] at hfree
    obtain ⟨fl', rfl⟩ := hfree.cons_of_refill
    refine ⟨fl', n, ?_, ?_⟩
    · simp only [hnone, if_false, hrefill]
      exact hi.pop _
    · rw [hone]
      constructor
      · intro hall k hk
        rcases List.mem_append.mp hk with hk | hk
        · exact hall k hk
        · -- there is a free request, so not all of the one region are live
          rw [List.mem_singleton.mp hk]
          rw [hone.mpr hall, List.length_cons] at hlen
          omega
      · exact fun hall k hk => hall k (List.mem_append_left _ hk)

end PoolInv

/-- The invariant holds along every run. -/
theorem PoolRun.inv {w : World} {h : PoolHistory} (hrun : PoolRun w h) :
    ∃ fl n, PoolInv w h fl n ∧ (n = 1 ↔ ∀ k ∈ h.atGets, k < mpRequestLimit) := by
  induction hrun with
  | init => exact ⟨_, 1, .init, ⟨fun _ k hk => (by cases hk), fun _ => rfl⟩⟩
  | get _ hget ih =>
    obtain ⟨fl, n, hi, hone⟩ := ih
    exact hi.get hone hget
  | release _ hp hrel ih =>
    obtain ⟨fl, n, hi, hone⟩ := ih
    cases hrel
    exact ⟨_, n, hi.release hp, hone⟩

/-! ## What is accounted for -/

/-- The requests of the first `n` regions. -/
theorem flatMap_requestsOf (n : Nat) :
    ((List.range n).map (mpRequestLimit * ·)).flatMap requestsOf = List.range (mpRequestLimit * n) := by
  induction n with
  | zero => rfl
  | succ n ih =>
    rw [List.range_succ, List.map_append, List.flatMap_append, ih, Nat.mul_succ, List.range_add,
      ← List.range'_eq_map_range]
    simp [requestsOf]

theorem mem_requestsOf {p i : Nat} : p ∈ requestsOf (mpRequestLimit * i) ↔ p / mpRequestLimit = i := by
  have hpos : 0 < mpRequestLimit := by decide
  rw [requestsOf, List.mem_range'_1, Nat.div_eq_iff hpos, Nat.mul_comm]
  omega

namespace PoolInv
variable {w : World} {h : PoolHistory} {fl : List Ptr} {n : Nat}

theorem regions_nodup (hi : PoolInv w h fl n) : h.regions.Nodup := by
  rw [hi.regions]
  refine List.nodup_range.map fun i j hij => ?_
  exact Nat.eq_of_mul_eq_mul_left (by decide) hij

/-- Every request handed out is of one region. -/
theorem region (hi : PoolInv w h fl n) {p : Ptr} (hp : p ∈ h.handed) : ∃! r, r ∈ h.regions ∧ p ∈ requestsOf r := by
  have hlt := hi.handed p hp
  rw [hi.frontier] at hlt
  refine ⟨mpRequestLimit * (p / mpRequestLimit), ⟨?_, mem_requestsOf.mpr rfl⟩, ?_⟩
  · rw [hi.regions]
    exact List.mem_map.mpr ⟨_, List.mem_range.mpr (Nat.div_lt_of_lt_mul hlt), rfl⟩
  · rintro r ⟨hr, hpr⟩
    rw [hi.regions] at hr
    obtain ⟨i, -, rfl⟩ := List.mem_map.mp hr
    rw [mem_requestsOf.mp hpr]

/-- The list of regions is complete as long as there is one region. -/
theorem listed_iff (hi : PoolInv w h fl n) : w.memRegionList.Perm h.regions ↔ n = 1 := by
  rw [hi.listed, hi.regions]
  constructor
  · intro hperm
    have hlen := hperm.length_eq
    simpa using hlen.symm
  · rintro rfl
    exact .refl _

end PoolInv

/-- A run of the pool of any length, with any number of requests live: the
regions, the list of regions, the free and the live requests and what
`mp_finalize` frees agree, exactly if never one more request was asked for
while all of a region were live. -/
theorem region_list_complete {w : World} {h : PoolHistory} (hrun : PoolRun w h) :
    Accounted w h ↔ ∀ k ∈ h.atGets, k < mpRequestLimit := by
  obtain ⟨fl, n, hi, hone⟩ := hrun.inv
  rw [← hone]
  constructor
  · exact fun hacc => hi.listed_iff.mp hacc.listed
  · intro h1
    have hlisted := hi.listed_iff.mpr h1
    refine ⟨hi.regions_nodup, hlisted, fun p hp => hi.region hp, ⟨fl, hi.free, ?_⟩, ?_⟩
    · rw [hi.regions, flatMap_requestsOf, ← hi.frontier]
      exact hi.requests
    · rw [freeRegions_eq]
      exact hlisted

/-- Two requests are handed out and one is put back. -/
theorem region_list_complete_of_two :
    ∃ w h, PoolRun w h ∧ h.live = [1] ∧ h.handed = [1, 0] ∧ Accounted w h := by
  have hfirst := PoolRun.get .init (getRequest_run ⟨World.init, []⟩)
  have hboth := hfirst.get (getRequest_run ⟨_, []⟩)
  have hrun : PoolRun _ ⟨[1], [1, 0], [0], [0, 1]⟩ := @PoolRun.release _ _ [] 0 _ hboth (by decide) rfl
  exact ⟨_, _, hrun, rfl, rfl, (region_list_complete hrun).mpr (by decide)⟩

/-- Any number of requests can be live at once. -/
theorem poolRun_of_gets (n : Nat) : ∃ w h, PoolRun w h ∧ h.live.length = n := by
  induction n with
  | zero => exact ⟨_, _, .init, rfl⟩
  | succ n ih =>
    obtain ⟨w, h, hrun, hlen⟩ := ih
    exact ⟨_, _, .get hrun (getRequest_run ⟨w, []⟩), congrArg Nat.succ hlen⟩

/-- With 513 requests live there is a second region, which is not on the list
and which `mp_finalize` does not free. -/
theorem second_region_is_lost :
    ∃ w h, PoolRun w h ∧ h.live.length = 513 ∧ 1 < h.regions.length ∧ freeRegions [] w.memRegionList = [0] ∧
      ¬ Accounted w h := by
  obtain ⟨w, h, hrun, hlen⟩ := poolRun_of_gets 513
  obtain ⟨fl, n, hi, -⟩ := hrun.inv
  have hn : 1 < n := by
    have hall := hi.length_eq
    rw [hlen, mpRequestLimit] at hall
    omega
  refine ⟨w, h, hrun, hlen, ?_, ?_, fun hacc => ?_⟩
  · simpa [hi.regions] using hn
  · rw [freeRegions_eq, hi.listed]
    rfl
  · exact absurd (hi.listed_iff.mp hacc.listed) (Nat.ne_of_gt hn)

end LibMp
