import LibMp.Making
import Mathlib.Algebra.BigOperators.Group.List.Basic
import Mathlib.Algebra.Ring.Nat

/- Where the bytes of a message go.

   A receive stores what arrives into the entries of its scatter list, one
   after the other. In UD mode a header of 40 bytes comes before the payload.
   `mp_irecv` gives it an entry of its own, `mp_irecvv` does not: its list has
   the blocks of the caller only. -/
namespace LibMp
variable {cfg : Config}

/-! ## Positions in a row of blocks -/

/-- The block in which byte `t` of a row of blocks lies, and where in it. -/
def locate : List Nat → Nat → Option (Nat × Nat)
  | [], _ => none
  | n :: rest, t => if t < n then some (0, t) else (locate rest (t - n)).map fun io => (io.1 + 1, io.2)

/-- A byte is where the blocks before it end, and its offset. -/
theorem locate_eq {lens : List Nat} {t i o : Nat} (h : locate lens t = some (i, o)) : t = (lens.take i).sum + o := by
  induction lens generalizing t i with
  | nil => cases h
  | cons n rest ih =>
    rw [locate] at h
    split at h
    · cases h
      simp
    · rename_i hge
      obtain ⟨⟨i', o'⟩, hl, he⟩ := Option.map_eq_some_iff.mp h
      cases he
      have := ih hl
      simp only [List.take_succ_cons, List.sum_cons]
      omega

/-- Every byte of the row lies in a block. -/
theorem locate_isSome {lens : List Nat} {t : Nat} (h : t < lens.sum) : ∃ i o, locate lens t = some (i, o) := by
  induction lens generalizing t with
  | nil => simp at h
  | cons n rest ih =>
    rw [locate]
    split
    · exact ⟨0, t, rfl⟩
    · rename_i hge
      obtain ⟨i, o, hl⟩ := ih (t := t - n) (by simp only [List.sum_cons] at h; omega)
      exact ⟨i + 1, o, by rw [hl]; rfl⟩

/-- Two bytes of the row are at two places. -/
theorem locate_inj {lens : List Nat} {t t' : Nat} (ht : t < lens.sum) (h : locate lens t' = locate lens t) :
    t' = t := by
  obtain ⟨i, o, hl⟩ := locate_isSome ht
  rw [hl] at h
  rw [locate_eq h, locate_eq hl]

/-! ## Scatter lists -/

/-- The scatter list of a request's receive. -/
def Request.scatterList (r : Request) : List Sge :=
  match r.inWr with
  | .sr _ => []
  | .rr wr =>
    match wr.sgList with
    | .sgEntry => [r.sgEntry].take wr.numSge
    | .udSgEntry => [r.udSgEntry.1, r.udSgEntry.2].take wr.numSge
    | .sgv => (r.sgv.getD []).take wr.numSge

/-- The entry that byte `t` of what arrives goes to, and where in it. -/
def scatterPlace (l : List Sge) (t : Nat) : Option (Nat × Nat) := locate (l.map Sge.length) t

/-- The address that byte `t` of what arrives is stored at. -/
def scatterAddr (l : List Sge) (t : Nat) : Option Nat :=
  (scatterPlace l t).bind fun io => (l[io.1]?).map fun e => e.addr + io.2

/-- `UD_ADDITION`. -/
def udAddition : Nat := 40

/-- What arrives before the payload. -/
def headerLength (cfg : Config) : Nat := if cfg.enableUd then udAddition else 0

/-- Where byte `k` of the concatenation of the blocks is. -/
def blockPlace (v : List Iovec) (k : Nat) : Option (Nat × Nat) := locate (v.map Iovec.len) k

def blockAddr (v : List Iovec) (k : Nat) : Option Nat :=
  (blockPlace v k).bind fun io => (v[io.1]?).map fun b => b.base + io.2

/-- How much the blocks hold. -/
def totalLength (v : List Iovec) : Nat := (v.map Iovec.len).sum

/-- The payload of a message of `m` bytes is stored as the concatenation of the
blocks. -/
def StoresInOrder (cfg : Config) (l : List Sge) (v : List Iovec) (m : Nat) : Prop :=
  ∀ k < m, scatterPlace l (headerLength cfg + k) = blockPlace v k ∧
    scatterAddr l (headerLength cfg + k) = blockAddr v k

/-! ## The two receives -/

/-- The scatter lists stay. -/
def SameScatter (w w' : World) : Prop := ∀ q, (w'.mem q).scatterList = (w.mem q).scatterList

instance : IsPreorder World SameScatter where
  refl _ _ := rfl
  trans _ _ _ h₁ h₂ q := (h₂ q).trans (h₁ q)

theorem sameScatter_fillWait (w : World) (c : Nat) (f : Flow) (p : Ptr) : SameScatter w (w.fillWait c f p) := by
  intro q
  simp only [World.fillWait]
  refine w.setReq_rel (R := fun r r' => r'.scatterList = r.scatterList) (fun _ => rfl) ?_ q
  rfl

/-- The list `mp_irecvv` has posted. -/
theorem mpIrecvv_list {v : List Iovec} {peer : Nat} {reg : Reg} {w : World} {tape : List Ans} {p : Ptr} {s' : Sys}
    (h : mpIrecvv cfg v peer reg ⟨w, tape⟩ = (.ok (0, some p), s')) : (s'.w.mem p).scatterList = sgvOf v reg := by
  have hp : p = w.nextFree := by
    have hrun : (Op.irecvv v peer reg).run cfg ⟨w, tape⟩ = (.ok (0, some p), s') := h
    obtain ⟨c, rest, -, hm, hr⟩ := Op.run_makes rfl hrun rfl
    simpa [recvRecipe] using (hm _ _ _ hr rfl).1
  obtain ⟨-, h⟩ := passes_ok h rfl
  obtain ⟨c, -, h₂⟩ := clientOf_bind_ok h
  have h₃ := start_ok h₂
  have hpost : Stays SameScatter (gdsPostRecv c w.nextFree) := Stays.call fun w q => rfl
  have hwait : Stays SameScatter (gdsPrepareWaitCq c .rx w.nextFree) :=
    Stays.call fun w => sameScatter_fillWait w c .rx _
  -- nothing after the list is built changes it
  have hrest := Stays.run (R := SameScatter) (.bind hpost fun _ => .ite (.pure _) ?_) h₃
  · rw [hp, hrest w.nextFree]
    simp [World.buildRecvv, Request.scatterList, sgvOf]
  · cases !cfg.useEventSync with
    | true => exact .bind hwait fun _ => .ite (.pure _) (.pure _)
    | false => exact .pure _

/-- The list `mp_irecv` has posted: in UD mode the header has an entry. -/
theorem mpIrecv_list {buf : Nat} {size : Int} {peer : Nat} {reg : Reg} {w : World} {tape : List Ans} {p : Ptr}
    {s' : Sys} (h : mpIrecv cfg buf size peer reg ⟨w, tape⟩ = (.ok (0, some p), s')) : (s'.w.mem p).scatterList =
      if cfg.enableUd then [⟨cfg.udPadding, udAddition, cfg.udPaddingKey⟩, ⟨buf, len32 size, reg.key⟩]
      else [⟨buf, len32 size, reg.key⟩] := by
  have hrun : (Op.irecv buf size peer reg).run cfg ⟨w, tape⟩ = (.ok (0, some p), s') := h
  obtain ⟨c, rest, -, hm, hr⟩ := Op.run_makes rfl hrun rfl
  obtain ⟨hreq, hk, -⟩ := hm _ _ _ hr rfl
  have hp : p = w.nextFree := by simpa [recvRecipe] using hreq
  have hmem := hk.mem w.nextFree
  rw [hp, Request.scatterList, hmem.inWr, hmem.sgEntry, hmem.udSgEntry]
  cases hud : cfg.enableUd with
  | true => simp [Recipe.started, recvRecipe, World.buildRecv, hud, udAddition]
  | false => simp [Recipe.started, recvRecipe, World.buildRecv, hud]

theorem sgvOf_lengths {v : List Iovec} (hv : ∀ b ∈ v, b.len < 2 ^ 32) (reg : Reg) :
    (sgvOf v reg).map Sge.length = v.map Iovec.len := by
  unfold sgvOf
  rw [List.map_map]
  refine List.map_congr_left fun b hb => ?_
  exact Nat.mod_eq_of_lt (hv b hb)

theorem sgvOf_place {v : List Iovec} (hv : ∀ b ∈ v, b.len < 2 ^ 32) (reg : Reg) (t : Nat) :
    scatterPlace (sgvOf v reg) t = blockPlace v t := by
  rw [scatterPlace, sgvOf_lengths hv, blockPlace]

theorem sgvOf_addr {v : List Iovec} (hv : ∀ b ∈ v, b.len < 2 ^ 32) (reg : Reg) (t : Nat) :
    scatterAddr (sgvOf v reg) t = blockAddr v t := by
  rw [scatterAddr, sgvOf_place hv, blockAddr]
  refine Option.bind_congr fun io _ => ?_
  rw [sgvOf, List.getElem?_map, Option.map_map]
  rfl

/-- The blocks are filled in order exactly if no header is in the way. -/
theorem storesInOrder_iff {v : List Iovec} (hv : ∀ b ∈ v, b.len < 2 ^ 32) (reg : Reg) {m : Nat}
    (hm : m ≤ totalLength v) : StoresInOrder cfg (sgvOf v reg) v m ↔ cfg.enableUd = false ∨ m = 0 := by
  constructor
  · intro h
    by_cases h0 : m = 0
    · exact .inr h0
    · left
      have hplace := (h 0 (by omega)).1
      rw [sgvOf_place hv] at hplace
      have heq := locate_inj (by unfold totalLength at hm; omega) hplace
      cases hud : cfg.enableUd with
      | false => rfl
      | true =>
        rw [headerLength, hud] at heq
        cases heq
  · rintro (hud | rfl) k hk
    · have hhead : headerLength cfg = 0 := by rw [headerLength, hud]; rfl
      rw [hhead, Nat.zero_add]
      exact ⟨sgvOf_place hv reg k, sgvOf_addr hv reg k⟩
    · exact absurd hk (Nat.not_lt_zero k)

/-- Every list of blocks of less than 2^32 bytes and every message that fits,
in both modes: the list `mp_irecvv` posts stores byte `k` of the payload at byte
`k` of the concatenation of the blocks, and for one block at the address at
which `mp_irecv` stores it, exactly in RC mode (or for an empty message). -/
theorem vector_receive_stores_in_order {v : List Iovec} {peer : Nat} {reg : Reg} {w : World} {tape : List Ans} {p : Ptr}
    {s' : Sys} (h : mpIrecvv cfg v peer reg ⟨w, tape⟩ = (.ok (0, some p), s')) (hv : ∀ b ∈ v, b.len < 2 ^ 32) {m : Nat}
    (hm : m ≤ totalLength v) :
    (StoresInOrder cfg (s'.w.mem p).scatterList v m ∧
      ∀ b w₁ tape₁ p₁ s₁, v = [b] → mpIrecv cfg b.base b.len peer reg ⟨w₁, tape₁⟩ = (.ok (0, some p₁), s₁) →
        ∀ k < m, scatterAddr (s'.w.mem p).scatterList (headerLength cfg + k) =
          scatterAddr (s₁.w.mem p₁).scatterList (headerLength cfg + k)) ↔
    cfg.enableUd = false ∨ m = 0 := by
  rw [mpIrecvv_list h, storesInOrder_iff hv reg hm]
  refine ⟨And.left, fun hc => ⟨hc, fun b w₁ tape₁ p₁ s₁ hb h₁ k hk => ?_⟩⟩
  rcases hc with hud | rfl
  · rw [mpIrecv_list h₁, hud, hb]
    -- in RC mode both calls post one and the same entry
    have hlen : len32 (b.len : Int) = b.len % 2 ^ 32 := by
      unfold len32
      omega
    rw [if_neg (by decide), hlen]
    rfl
  · exact absurd hk (Nat.not_lt_zero k)

/-- Two blocks in RC mode. -/
theorem vector_receive_stores_in_order_rc : ∃ s', mpIrecvv onePeer [⟨0, 8⟩, ⟨64, 8⟩] 1 ⟨0⟩ ⟨World.init, []⟩ =
    (.ok (0, some 0), s') ∧ StoresInOrder onePeer (s'.w.mem 0).scatterList [⟨0, 8⟩, ⟨64, 8⟩] 16 := by
  have hrun : mpIrecvv onePeer [⟨0, 8⟩, ⟨64, 8⟩] 1 ⟨0⟩ ⟨World.init, []⟩ = (.ok (0, some 0), _) := rfl
  exact ⟨_, hrun, ((vector_receive_stores_in_order hrun (by decide) (by decide)).mpr (.inl rfl)).1⟩

/-- One peer, in UD mode. -/
def udPeer : Config := { peers := [1], enableUd := true }

/-- One block of 64 bytes in UD mode: `mp_irecvv` stores the first byte of the
payload 40 bytes into the block, `mp_irecv` at its start. -/
theorem vector_receive_stores_after_the_header : ∃ s₁ s₂,
    mpIrecvv udPeer [⟨4096, 64⟩] 1 ⟨0⟩ ⟨World.init, []⟩ = (.ok (0, some 0), s₁) ∧
    mpIrecv udPeer 4096 64 1 ⟨0⟩ ⟨World.init, []⟩ = (.ok (0, some 0), s₂) ∧
    scatterAddr (s₁.w.mem 0).scatterList (headerLength udPeer) = some 4136 ∧
    scatterAddr (s₂.w.mem 0).scatterList (headerLength udPeer) = some 4096 ∧
    ¬ StoresInOrder udPeer (s₁.w.mem 0).scatterList [⟨4096, 64⟩] 8 := by
  have h₁ : mpIrecvv udPeer [⟨4096, 64⟩] 1 ⟨0⟩ ⟨World.init, []⟩ = (.ok (0, some 0), _) := rfl
  have h₂ : mpIrecv udPeer 4096 64 1 ⟨0⟩ ⟨World.init, []⟩ = (.ok (0, some 0), _) := rfl
  refine ⟨_, _, h₁, h₂, ?_, ?_, fun h => ?_⟩
  · rw [mpIrecvv_list h₁]
    decide
  · rw [mpIrecv_list h₂]
    decide
  · rw [mpIrecvv_list h₁] at h
    exact absurd (h 0 (by decide)).2 (by decide)

end LibMp
