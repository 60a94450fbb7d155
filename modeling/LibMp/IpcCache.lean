import Mathlib.Data.List.Induction
import LibMp.Linked
import LibMp.Post

/- The cache of IPC handles (mp.c): `ipc_handle_cache_find` and
   `ipc_handle_cache_insert`, as `mp_isend` and `progress_ipc` use them.

   Every client has a list of the allocations whose handles are known, the
   latest first. The lookup walks down the list to the first entry that meets
   the range asked for. It computes the end of an entry from its size stored
   into an `int`: `narrowEnd` is what comes out, and below 2^31 bytes it is the
   end of the allocation. -/
namespace LibMp

/-! ## The latest of a history -/

/-- `r` is the last index with `P`, if there is one. -/
def Latest (P : Nat → Prop) : Option Nat → Prop
  | none => ∀ n, ¬P n
  | some n => P n ∧ ∀ m, n < m → ¬P m

namespace Latest
variable {P Q : Nat → Prop} {r r' : Option Nat}

theorem unique (h : Latest P r) (h' : Latest P r') : r = r' := by
  cases r with
  | none =>
    cases r' with
    | none => rfl
    | some n => exact absurd h'.1 (h n)
  | some m =>
    cases r' with
    | none => exact absurd h.1 (h' m)
    | some n =>
      have hmn : ¬m < n := fun hlt => h.2 n hlt h'.1
      have hnm : ¬n < m := fun hlt => h'.2 m hlt h.1
      rw [show m = n by omega]

/-- A bounded history has a latest index. -/
theorem exists_of_lt {N : Nat} (hb : ∀ n, P n → n < N) : ∃ r, Latest P r := by
  induction N with
  | zero => exact ⟨none, fun n hn => absurd (hb n hn) (Nat.not_lt_zero n)⟩
  | succ N ih =>
    by_cases hN : P N
    · exact ⟨some N, hN, fun m hm hPm => by have := hb m hPm; omega⟩
    · refine ih fun n hn => ?_
      have hne : n ≠ N := fun he => hN (he ▸ hn)
      have := hb n hn
      omega

theorem congr (h : Latest P r) (hpq : ∀ n, P n ↔ Q n) : Latest Q r := by
  cases r with
  | none => exact fun n hn => h n ((hpq n).mpr hn)
  | some m => exact ⟨(hpq m).mp h.1, fun n hmn hn => h.2 n hmn ((hpq n).mpr hn)⟩

/-- Two histories have the same latest index exactly when the latest index of
either is one of both. -/
theorem agree_iff {N : Nat} (hb : ∀ n, P n ∨ Q n → n < N) (h : Latest P r) :
    Latest Q r ↔ ∀ n, Latest (fun m => P m ∨ Q m) (some n) → P n ∧ Q n := by
  constructor
  · rintro hq n ⟨hn, hlast⟩
    cases r with
    | none => exact hn.elim (fun hp => absurd hp (h n)) (fun hq' => absurd hq' (hq n))
    | some m =>
      have hnm : ¬n < m := fun hlt => hlast m hlt (.inl h.1)
      have hmn : ¬m < n := fun hlt => hn.elim (h.2 n hlt) (hq.2 n hlt)
      obtain rfl : n = m := by omega
      exact ⟨h.1, hq.1⟩
  · intro hall
    obtain ⟨r', hr'⟩ := exists_of_lt hb
    cases r' with
    | none =>
      rw [unique h (show Latest P none from fun n hn => hr' n (.inl hn))]
      exact fun n hn => hr' n (.inr hn)
    | some n =>
      have hn := hall n hr'
      rw [unique h (show Latest P (some n) from ⟨hn.1, fun m hm hp => hr'.2 m hm (.inl hp)⟩)]
      exact ⟨hn.2, fun m hm hq => hr'.2 m hm (.inr hq)⟩

/-- In a list that goes down, the first element that passes is the latest. -/
theorem find? {test : Nat → Bool} {l : List Nat} (hl : l.Pairwise (· > ·)) :
    Latest (fun n => n ∈ l ∧ test n = true) (l.find? test) := by
  induction l with
  | nil => exact fun n hn => by cases hn.1
  | cons p l ih =>
    obtain ⟨hp, hl⟩ := List.pairwise_cons.mp hl
    rw [List.find?_cons]
    cases ht : test p with
    | true =>
      refine ⟨⟨List.mem_cons_self, ht⟩, ?_⟩
      rintro m hm ⟨hmem, -⟩
      rcases List.mem_cons.mp hmem with rfl | hmem
      · exact absurd hm (Nat.lt_irrefl m)
      · have : m < p := hp m hmem
        omega
    | false =>
      refine (ih hl).congr fun n => ⟨fun h => ⟨List.mem_cons_of_mem p h.1, h.2⟩, fun h => ⟨?_, h.2⟩⟩
      rcases List.mem_cons.mp h.1 with rfl | hmem
      · exact absurd h.2 (by simp [ht])
      · exact hmem

end Latest

/-! ## The cache -/

/-- `ipc_handle_cache_entry_t`. -/
structure IpcHandleCacheEntry where
  base : Nat
  size : Nat
  remoteBase : Nat
  handle : Nat
  next : Option Ptr := none
  prev : Option Ptr := none

/-- The entries given out by `malloc`, and `clients[c].ipc_handle_cache`. -/
structure IpcCache where
  mem : Ptr → IpcHandleCacheEntry := fun _ => ⟨0, 0, 0, 0, none, none⟩
  ipcHandleCache : Nat → Option Ptr := fun _ => none
  allocated : Nat := 0

/-- `mpi_comm_rank` and `client_index` of a process. -/
structure IpcRank where
  mpiCommRank : Nat
  clientIndex : Nat → Nat

variable (k : IpcRank)

/-- Where the memory of an entry starts, for a lookup for `peer`. -/
def IpcRank.handleBase (peer : Nat) (entry : IpcHandleCacheEntry) : Nat :=
  if peer = k.mpiCommRank then entry.base else entry.remoteBase

/-- The test of the lookup, on 64-bit words. -/
def rangesMeet (handleBase : Nat) (handleSize : Int) (addr : Nat) (size : Int) : Bool :=
  !(decide ((handleBase + toUint64 handleSize) % 2 ^ 64 ≤ addr) ||
    decide (handleBase ≥ (addr + toUint64 size) % 2 ^ 64))

namespace IpcCache
variable (s : IpcCache)

def set (p : Ptr) (f : IpcHandleCacheEntry → IpcHandleCacheEntry) : IpcCache :=
  { s with mem := Function.update s.mem p (f (s.mem p)) }

/-- The test for the entry at `p`: its size goes through an `int`. -/
def meets (addr : Nat) (size : Int) (peer : Nat) (p : Ptr) : Bool :=
  rangesMeet (k.handleBase peer (s.mem p)) (toInt (s.mem p).size) addr size

/-- `ipc_handle_cache_find`; `none` is a walk that does not end. -/
def ipcHandleCacheFind (addr : Nat) (size : Int) (peer : Nat) : Option (Option Ptr) :=
  search (fun p => (s.mem p).next) (s.meets k addr size peer) s.allocated (s.ipcHandleCache (k.clientIndex peer))

/-- `ipc_handle_cache_insert`. -/
def ipcHandleCacheInsert (newHandle : Ptr) (peer : Nat) : IpcCache :=
  let cidx := k.clientIndex peer
  let s := s.set newHandle fun e => { e with next := none, prev := none }
  match s.ipcHandleCache cidx with
  | none => { s with ipcHandleCache := Function.update s.ipcHandleCache cidx (some newHandle) }
  | some first =>
    let s := s.set newHandle fun e => { e with next := some first }
    let s := s.set first fun e => { e with prev := some newHandle }
    { s with ipcHandleCache := Function.update s.ipcHandleCache cidx (some newHandle) }

/-- A fresh entry is filled in as `new` and inserted for `peer`. -/
def add (peer : Nat) (new : IpcHandleCacheEntry) : IpcCache :=
  ipcHandleCacheInsert k
    { s with mem := Function.update s.mem s.allocated new, allocated := s.allocated + 1 } s.allocated peer

/-- The lookup, and `new` inserted if it finds nothing; `progress_ipc` does this
for the client `peer` that sent a buffer. -/
def cachedHandle (addr : Nat) (size : Int) (peer : Nat) (new : IpcHandleCacheEntry) : Option (Ptr × IpcCache) :=
  match s.ipcHandleCacheFind k addr size peer with
  | none => none
  | some (some entry) => some (entry, s)
  | some none => some (s.allocated, s.add k peer new)

/-- `mp_isend` does it for the own rank; `new` is the allocation of `buf`. -/
def mpIsendHandle (buf : Nat) (size : Int) (new : IpcHandleCacheEntry) : Option (Ptr × IpcCache) :=
  s.cachedHandle k buf size k.mpiCommRank new

/-- The cache after the insertions `ins`, each of an entry for a peer. -/
def run (ins : List (Nat × IpcHandleCacheEntry)) : IpcCache :=
  ins.foldl (fun s x => s.add k x.1 x.2) {}

theorem run_concat (ins : List (Nat × IpcHandleCacheEntry)) (x : Nat × IpcHandleCacheEntry) :
    run k (ins ++ [x]) = (run k ins).add k x.1 x.2 := by
  rw [run, List.foldl_append]
  rfl

/-! ## What an insertion does -/

variable {k s}

theorem add_allocated (peer : Nat) (new : IpcHandleCacheEntry) : (s.add k peer new).allocated = s.allocated + 1 := by
  unfold add ipcHandleCacheInsert
  dsimp only [set]
  split <;> rfl

theorem add_head (peer : Nat) (new : IpcHandleCacheEntry) (c : Nat) :
    (s.add k peer new).ipcHandleCache c =
      if c = k.clientIndex peer then some s.allocated else s.ipcHandleCache c := by
  unfold add ipcHandleCacheInsert
  dsimp only [set]
  split <;> exact Function.update_apply ..

/-- The new entry goes in front; the links of the others stay. -/
theorem add_mem (peer : Nat) (new : IpcHandleCacheEntry) (p : Ptr) :
    ∃ pv, (s.add k peer new).mem p =
      if p = s.allocated then { new with next := s.ipcHandleCache (k.clientIndex peer), prev := pv }
      else { s.mem p with prev := pv } := by
  unfold add ipcHandleCacheInsert
  dsimp only [set]
  split
  next hh =>
    by_cases hp : p = s.allocated
    · subst hp
      exact ⟨none, by simp [show s.ipcHandleCache (k.clientIndex peer) = none from hh]⟩
    · exact ⟨(s.mem p).prev, by simp [hp]⟩
  next first hh =>
    by_cases hp : p = s.allocated
    · subst hp
      by_cases hf : s.allocated = first
      · subst hf
        exact ⟨some s.allocated, by simp [show s.ipcHandleCache (k.clientIndex peer) = _ from hh]⟩
      · exact ⟨none, by simp [hf, show s.ipcHandleCache (k.clientIndex peer) = _ from hh]⟩
    · by_cases hf : p = first
      · subst hf
        exact ⟨some s.allocated, by simp [hp]⟩
      · exact ⟨(s.mem p).prev, by simp [hp, hf]⟩

/-! ## The lists of the clients -/

/-- The entries of the list of client `c`, the latest first. -/
def entriesOf (k : IpcRank) (ins : List (Nat × IpcHandleCacheEntry)) (c : Nat) : List Ptr :=
  ((ins.zipIdx.filter fun x => k.clientIndex x.1.1 = c).map Prod.snd).reverse

theorem entriesOf_concat (ins : List (Nat × IpcHandleCacheEntry)) (x : Nat × IpcHandleCacheEntry) (c : Nat) :
    entriesOf k (ins ++ [x]) c =
      if k.clientIndex x.1 = c then ins.length :: entriesOf k ins c else entriesOf k ins c := by
  unfold entriesOf
  rw [List.zipIdx_append, List.filter_append]
  by_cases hx : k.clientIndex x.1 = c <;> simp [hx]

theorem mem_entriesOf {ins : List (Nat × IpcHandleCacheEntry)} {c n : Nat} :
    n ∈ entriesOf k ins c ↔ ∃ x, ins[n]? = some x ∧ k.clientIndex x.1 = c := by
  simp only [entriesOf, List.mem_reverse, List.mem_map, List.mem_filter, decide_eq_true_eq]
  constructor
  · rintro ⟨⟨x, n⟩, ⟨hx, hc⟩, rfl⟩
    exact ⟨x, List.mem_zipIdx_iff_getElem?.mp hx, hc⟩
  · rintro ⟨x, hx, hc⟩
    exact ⟨(x, n), ⟨List.mem_zipIdx_iff_getElem?.mpr hx, hc⟩, rfl⟩

theorem lt_of_mem_entriesOf {ins : List (Nat × IpcHandleCacheEntry)} {c n : Nat} (h : n ∈ entriesOf k ins c) :
    n < ins.length := by
  obtain ⟨x, hx, -⟩ := mem_entriesOf.mp h
  exact (List.getElem?_eq_some_iff.mp hx).1

/-- After the insertions `ins` the `n`th entry is the one inserted by the `n`th,
and every client has its entries in a list. -/
structure CacheOk (k : IpcRank) (ins : List (Nat × IpcHandleCacheEntry)) (s : IpcCache) : Prop where
  allocated : s.allocated = ins.length
  entry : ∀ (n : Nat) x, ins[n]? = some x → ∃ nx pv, s.mem n = { x.2 with next := nx, prev := pv }
  list : ∀ c, Linked (fun p => (s.mem p).next) (s.ipcHandleCache c) (entriesOf k ins c)
  down : ∀ c, (entriesOf k ins c).Pairwise (· > ·)

theorem CacheOk.add {ins : List (Nat × IpcHandleCacheEntry)} (h : CacheOk k ins s)
    (x : Nat × IpcHandleCacheEntry) : CacheOk k (ins ++ [x]) (s.add k x.1 x.2) where
  allocated := by rw [add_allocated, h.allocated, List.length_append, List.length_singleton]
  entry n y hn := by
    obtain ⟨pv, hm⟩ := add_mem (k := k) (s := s) x.1 x.2 n
    rw [hm, h.allocated]
    by_cases hlt : n < ins.length
    · rw [List.getElem?_append_left hlt] at hn
      obtain ⟨nx, _, he⟩ := h.entry n y hn
      rw [if_neg (Nat.ne_of_lt hlt), he]
      exact ⟨nx, pv, rfl⟩
    · have hlen := (List.getElem?_eq_some_iff.mp hn).1
      obtain rfl : n = ins.length := by
        rw [List.length_append, List.length_singleton] at hlen
        omega
      rw [List.getElem?_concat_length] at hn
      cases hn
      rw [if_pos rfl]
      exact ⟨_, pv, rfl⟩
  list c := by
    have hold : Linked (fun p => ((s.add k x.1 x.2).mem p).next) (s.ipcHandleCache c) (entriesOf k ins c) := by
      refine (h.list c).frame fun p hp => ?_
      obtain ⟨pv, hm⟩ := add_mem (k := k) (s := s) x.1 x.2 p
      have hlt : p < ins.length := lt_of_mem_entriesOf hp
      rw [hm, h.allocated, if_neg (Nat.ne_of_lt hlt)]
    rw [entriesOf_concat, add_head]
    by_cases hc : k.clientIndex x.1 = c
    · obtain ⟨pv, hm⟩ := add_mem (k := k) (s := s) x.1 x.2 ins.length
      rw [if_pos hc, if_pos hc.symm, Linked.cons_iff]
      refine ⟨by rw [h.allocated], ?_⟩
      rw [hm, h.allocated, if_pos rfl, hc]
      exact hold
    · rw [if_neg hc, if_neg (fun he => hc he.symm)]
      exact hold
  down c := by
    rw [entriesOf_concat]
    split
    · exact List.pairwise_cons.mpr ⟨fun n hn => lt_of_mem_entriesOf hn, h.down c⟩
    · exact h.down c

theorem cacheOk_run (k : IpcRank) (ins : List (Nat × IpcHandleCacheEntry)) : CacheOk k ins (run k ins) := by
  induction ins using List.reverseRecOn with
  | nil => exact ⟨rfl, fun n x hn => by simp at hn, fun c => rfl, fun c => .nil⟩
  | append_singleton ins x ih =>
    rw [run_concat]
    exact ih.add x

/-- Insertion `n` is of an entry for the client of `peer` with `P`. -/
def Inserted (k : IpcRank) (ins : List (Nat × IpcHandleCacheEntry)) (peer : Nat)
    (P : IpcHandleCacheEntry → Prop) (n : Nat) : Prop :=
  ∃ x, ins[n]? = some x ∧ k.clientIndex x.1 = k.clientIndex peer ∧ P x.2

theorem Inserted.lt {ins : List (Nat × IpcHandleCacheEntry)} {peer n : Nat} {P : IpcHandleCacheEntry → Prop}
    (h : Inserted k ins peer P n) : n < ins.length := by
  obtain ⟨x, hx, -⟩ := h
  exact (List.getElem?_eq_some_iff.mp hx).1

/-- The lookup ends, at the latest entry that passes its test. -/
theorem find_latest (k : IpcRank) (ins : List (Nat × IpcHandleCacheEntry)) (addr : Nat) (size : Int) (peer : Nat) :
    ∃ r, (run k ins).ipcHandleCacheFind k addr size peer = some r ∧
      Latest (Inserted k ins peer fun e => rangesMeet (k.handleBase peer e) (toInt e.size) addr size = true) r := by
  have h := cacheOk_run k ins
  have hlen : (entriesOf k ins (k.clientIndex peer)).length ≤ (run k ins).allocated := by
    rw [h.allocated, entriesOf, List.length_reverse, List.length_map]
    exact (List.length_filter_le ..).trans_eq (List.length_zipIdx ..)
  refine ⟨_, (h.list _).search_eq hlen, (Latest.find? (h.down _)).congr fun n => ?_⟩
  rw [mem_entriesOf]
  constructor
  · rintro ⟨⟨x, hx, hc⟩, ht⟩
    obtain ⟨nx, pv, he⟩ := h.entry n x hx
    rw [meets, he] at ht
    exact ⟨x, hx, hc, ht⟩
  · rintro ⟨x, hx, hc, ht⟩
    obtain ⟨nx, pv, he⟩ := h.entry n x hx
    refine ⟨⟨x, hx, hc⟩, ?_⟩
    rw [meets, he]
    exact ht

end IpcCache

/-! ## Ranges -/

/-- The end of an entry as the lookup computes it. -/
def narrowEnd (base size : Nat) : Nat := (base + toUint64 (toInt size)) % 2 ^ 64

/-- Below 2^31 bytes it is the end of the allocation. -/
theorem narrowEnd_eq {base size : Nat} (hs : size < 2 ^ 31) (hw : base + size < 2 ^ 64) :
    narrowEnd base size = base + size := by
  rw [narrowEnd, toInt_eq_self hs]
  unfold toUint64
  omega

/-- The bytes from `base` and those from `addr` have one in common. -/
def ShareByte (base size addr len : Nat) : Prop :=
  ∃ b, base ≤ b ∧ b < base + size ∧ addr ≤ b ∧ b < addr + len

theorem shareByte_iff {base size addr len : Nat} :
    ShareByte base size addr len ↔ 0 < size ∧ 0 < len ∧ base < addr + len ∧ addr < base + size := by
  constructor
  · rintro ⟨b, h₁, h₂, h₃, h₄⟩
    omega
  · rintro ⟨h₁, h₂, h₃, h₄⟩
    exact ⟨max base addr, by omega, by omega, by omega, by omega⟩

/-- The memory starts below the end of the range asked for, and its end or the
computed end lies above the start of that range. -/
def Reaches (base size addr len : Nat) : Prop :=
  base < addr + len ∧ (addr < base + size ∨ addr < narrowEnd base size)

/-- The memory is not empty, and both ends lie above `addr`. -/
def BothEndsAbove (base size addr : Nat) : Prop :=
  0 < size ∧ addr < base + size ∧ addr < narrowEnd base size

section Query
variable {base size addr : Nat} {q : Int}

theorem rangesMeet_iff (h0 : 0 < q) (ha : addr + q.toNat < 2 ^ 64) :
    rangesMeet base (toInt size) addr q = true ↔ base < addr + q.toNat ∧ addr < narrowEnd base size := by
  have hq : (addr + toUint64 q) % 2 ^ 64 = addr + q.toNat := by
    unfold toUint64
    omega
  rw [rangesMeet, hq, narrowEnd]
  simp only [Bool.not_eq_true', Bool.or_eq_false_iff, decide_eq_false_iff_not]
  omega

theorem reaches_iff (h0 : 0 < q) (ha : addr + q.toNat < 2 ^ 64) (hw : base + size < 2 ^ 64) :
    rangesMeet base (toInt size) addr q = true ∨ ShareByte base size addr q.toNat ↔
      Reaches base size addr q.toNat := by
  have hempty : size = 0 → narrowEnd base size = base + size := fun hs => narrowEnd_eq (by omega) hw
  rw [rangesMeet_iff h0 ha, shareByte_iff, Reaches]
  omega

theorem meets_and_shares_iff (h0 : 0 < q) (ha : addr + q.toNat < 2 ^ 64) (hr : Reaches base size addr q.toNat) :
    rangesMeet base (toInt size) addr q = true ∧ ShareByte base size addr q.toNat ↔
      BothEndsAbove base size addr := by
  have hlt : base < addr + q.toNat := hr.1
  rw [rangesMeet_iff h0 ha, shareByte_iff, BothEndsAbove]
  omega

end Query

/-! ## The lookup finds what was inserted -/

open IpcCache in
/-- The lookup gives the latest entry of the peer that has a byte of the range,
and inside a known allocation nothing is inserted. -/
structure FindsLatest (k : IpcRank) (ins : List (Nat × IpcHandleCacheEntry)) (peer addr : Nat) (size : Int) :
    Prop where
  lookup : ∃ r, (run k ins).ipcHandleCacheFind k addr size peer = some r ∧
    Latest (Inserted k ins peer fun e => ShareByte (k.handleBase peer e) e.size addr size.toNat) r
  once : ∀ n, Inserted k ins peer
      (fun e => k.handleBase peer e ≤ addr ∧ addr + size.toNat ≤ k.handleBase peer e + e.size) n →
    ∀ new, ∃ p, (run k ins).cachedHandle k addr size peer new = some (p, run k ins)

/-- The latest entry that reaches the range has both ends above its start. -/
def LatestEndsAgree (k : IpcRank) (ins : List (Nat × IpcHandleCacheEntry)) (peer addr : Nat) (size : Int) : Prop :=
  ∀ n, Latest (IpcCache.Inserted k ins peer fun e => Reaches (k.handleBase peer e) e.size addr size.toNat) (some n) →
    IpcCache.Inserted k ins peer (fun e => BothEndsAbove (k.handleBase peer e) e.size addr) n

namespace IpcCache
variable {k : IpcRank} {ins : List (Nat × IpcHandleCacheEntry)} {peer addr n : Nat} {size : Int}

theorem Inserted.imp {P Q : IpcHandleCacheEntry → Prop} (h : Inserted k ins peer P n)
    (hpq : ∀ x ∈ ins, k.clientIndex x.1 = k.clientIndex peer → P x.2 → Q x.2) : Inserted k ins peer Q n := by
  obtain ⟨x, hx, hc, hP⟩ := h
  exact ⟨x, hx, hc, hpq x (List.mem_of_getElem? hx) hc hP⟩

theorem inserted_or {P Q : IpcHandleCacheEntry → Prop} :
    Inserted k ins peer P n ∨ Inserted k ins peer Q n ↔ Inserted k ins peer (fun e => P e ∨ Q e) n := by
  constructor
  · rintro (h | h)
    · exact h.imp fun x _ _ => .inl
    · exact h.imp fun x _ _ => .inr
  · rintro ⟨x, hx, hc, hP | hQ⟩
    · exact .inl ⟨x, hx, hc, hP⟩
    · exact .inr ⟨x, hx, hc, hQ⟩

theorem inserted_and {P Q : IpcHandleCacheEntry → Prop} :
    Inserted k ins peer P n ∧ Inserted k ins peer Q n ↔ Inserted k ins peer (fun e => P e ∧ Q e) n := by
  constructor
  · rintro ⟨⟨x, hx, hc, hP⟩, ⟨y, hy, -, hQ⟩⟩
    rw [hx] at hy
    cases hy
    exact ⟨x, hx, hc, hP, hQ⟩
  · rintro ⟨x, hx, hc, hP, hQ⟩
    exact ⟨⟨x, hx, hc, hP⟩, ⟨x, hx, hc, hQ⟩⟩

/-- Inside a known allocation the right answer is an entry, so nothing is inserted. -/
theorem once_of_lookup (h0 : 0 < size)
    (h : ∃ r, (run k ins).ipcHandleCacheFind k addr size peer = some r ∧
      Latest (Inserted k ins peer fun e => ShareByte (k.handleBase peer e) e.size addr size.toNat) r)
    (hin : Inserted k ins peer
      (fun e => k.handleBase peer e ≤ addr ∧ addr + size.toNat ≤ k.handleBase peer e + e.size) n)
    (new : IpcHandleCacheEntry) : ∃ p, (run k ins).cachedHandle k addr size peer new = some (p, run k ins) := by
  obtain ⟨r, hr, hl⟩ := h
  cases r with
  | none =>
    refine absurd (hin.imp fun x _ _ hx => ?_) (hl n)
    exact shareByte_iff.mpr (by omega)
  | some p => exact ⟨p, by rw [cachedHandle, hr]⟩

end IpcCache

/-- Entries of 1 to 2^31 - 1 bytes never make the lookup go wrong. -/
theorem latestEndsAgree_of_small {k : IpcRank} {ins : List (Nat × IpcHandleCacheEntry)} {peer addr : Nat} {size : Int}
    (hs : ∀ x ∈ ins, k.clientIndex x.1 = k.clientIndex peer →
      (0 < x.2.size ∧ x.2.size < 2 ^ 31) ∧ k.handleBase peer x.2 + x.2.size < 2 ^ 64) :
    LatestEndsAgree k ins peer addr size := by
  rintro n ⟨hn, -⟩
  refine hn.imp fun x hx hc hr => ?_
  obtain ⟨⟨hpos, hlt⟩, hw⟩ := hs x hx hc
  have hend := narrowEnd_eq hlt hw
  have habove : addr < k.handleBase peer x.2 + x.2.size := by
    rcases hr.2 with h | h
    · exact h
    · rwa [hend] at h
  exact ⟨hpos, habove, by rwa [hend]⟩

open IpcCache in
/-- Exactly when the ends agree at the latest entry that reaches the range. -/
theorem ipc_cache_finds_latest (k : IpcRank) (ins : List (Nat × IpcHandleCacheEntry)) (peer addr : Nat) (size : Int)
    (hw : ∀ x ∈ ins, k.clientIndex x.1 = k.clientIndex peer → k.handleBase peer x.2 + x.2.size < 2 ^ 64)
    (h0 : 0 < size) (ha : addr + size.toNat < 2 ^ 64) :
    FindsLatest k ins peer addr size ↔ LatestEndsAgree k ins peer addr size := by
  obtain ⟨r, hr, hl⟩ := find_latest k ins addr size peer
  have hreach : ∀ n, Inserted k ins peer (fun e => rangesMeet (k.handleBase peer e) (toInt e.size) addr size = true) n ∨
      Inserted k ins peer (fun e => ShareByte (k.handleBase peer e) e.size addr size.toNat) n ↔
      Inserted k ins peer (fun e => Reaches (k.handleBase peer e) e.size addr size.toNat) n := by
    intro n
    rw [inserted_or]
    constructor
    · exact fun h => h.imp fun x hx hc => (reaches_iff h0 ha (hw x hx hc)).mp
    · exact fun h => h.imp fun x hx hc => (reaches_iff h0 ha (hw x hx hc)).mpr
  have hagree := Latest.agree_iff (fun n h => (inserted_or.mp h).lt) hl
    (Q := Inserted k ins peer fun e => ShareByte (k.handleBase peer e) e.size addr size.toNat)
  constructor
  · rintro ⟨⟨r', hr', hl'⟩, -⟩ n hn
    rw [hr] at hr'
    cases hr'
    have hboth := hagree.mp hl' n (hn.congr fun m => (hreach m).symm)
    have hmeet := inserted_and.mp ⟨inserted_and.mp hboth, hn.1⟩
    exact hmeet.imp fun x _ _ hx => (meets_and_shares_iff h0 ha hx.2).mp hx.1
  · intro hends
    have hlookup := hagree.mpr fun n hn => by
      have hn' := hn.congr hreach
      have hboth := inserted_and.mp ⟨hends n hn', hn'.1⟩
      exact inserted_and.mpr (hboth.imp fun x _ _ hx => (meets_and_shares_iff h0 ha hx.2).mpr hx.1)
    exact ⟨⟨r, hr, hlookup⟩, fun n hin => once_of_lookup h0 ⟨r, hr, hlookup⟩ hin⟩

/-- Two allocations of one megabyte and a buffer in the older one. -/
theorem ipc_cache_finds_latest_older :
    FindsLatest ⟨0, id⟩ [(0, ⟨2 ^ 30, 2 ^ 20, 0, 7, none, none⟩), (0, ⟨2 ^ 40, 2 ^ 20, 0, 8, none, none⟩)] 0
      (2 ^ 30 + 4096) 64 := by
  have hsmall : ∀ x ∈ [(0, (⟨2 ^ 30, 2 ^ 20, 0, 7, none, none⟩ : IpcHandleCacheEntry)),
      (0, ⟨2 ^ 40, 2 ^ 20, 0, 8, none, none⟩)], (0 < x.2.size ∧ x.2.size < 2 ^ 31) ∧
      IpcRank.handleBase ⟨0, id⟩ 0 x.2 + x.2.size < 2 ^ 64 := by decide
  refine (ipc_cache_finds_latest _ _ _ _ _ (fun x hx _ => (hsmall x hx).2) (by decide) (by decide)).mpr ?_
  exact latestEndsAgree_of_small fun x hx _ => hsmall x hx

/-- An allocation of 4 GiB: its size is 0 as an `int`, a buffer in it is not
found, and `mp_isend` inserts a second entry. -/
theorem large_allocation_is_not_found :
    ¬FindsLatest ⟨0, id⟩ [(0, ⟨2 ^ 40, 2 ^ 32, 0, 7, none, none⟩)] 0 (2 ^ 40 + 4096) 64 ∧
    ∀ new, ∃ s, (IpcCache.run ⟨0, id⟩ [(0, ⟨2 ^ 40, 2 ^ 32, 0, 7, none, none⟩)]).mpIsendHandle ⟨0, id⟩
      (2 ^ 40 + 4096) 64 new = some (1, s) := by
  have hnone : (IpcCache.run ⟨0, id⟩ [(0, ⟨2 ^ 40, 2 ^ 32, 0, 7, none, none⟩)]).ipcHandleCacheFind ⟨0, id⟩
      (2 ^ 40 + 4096) 64 0 = some none := by decide
  constructor
  · rintro ⟨⟨r, hr, hl⟩, -⟩
    rw [hnone] at hr
    cases hr
    refine hl 0 ⟨_, rfl, rfl, shareByte_iff.mpr ?_⟩
    decide
  · intro new
    rw [IpcCache.mpIsendHandle, IpcCache.cachedHandle, hnone]
    exact ⟨_, rfl⟩

end LibMp
