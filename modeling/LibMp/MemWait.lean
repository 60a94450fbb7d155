import LibMp.Posting

/- Waiting for a word of memory: `mp_wait32` on the CPU, `mp_wait32_on_stream`,
   and a wait descriptor of a queue that is posted on a stream.

   All three take a flag of `enum mp_wait_flags`, and each has its own
   translation of it: comparisons in C, a mapping to the conditions of
   libgdsync, and a cast to them. The conditions of libgdsync are numbered from
   0 on: GEQ, EQ, AND, NOR. -/
namespace LibMp

/-- What the flag says: the wait is over when the word holds `x`. -/
def waitFlagHolds (flags : Int) (x v : Nat) : Bool :=
  if flags = mpWaitGeq then v ≤ x else if flags = mpWaitEq then x == v else x &&& v != 0

/-! ## The three waits -/

/-- The `switch` of `mp_wait32`; it has no case for other flags. -/
def wait32Cond (flags : Int) (x v : Nat) : Option Bool :=
  if flags = mpWaitEq then some (v < x)
  else if flags = mpWaitGeq then some (v ≤ x)
  else if flags = mpWaitAnd then some (x &&& v != 0)
  else none

/-- `mp_wait32`, where the reads of `*ptr` give the words of the list; none if
it is still in its loop after them. -/
def mpWait32 (value : Nat) (flags : Int) : List Nat → Option Int
  | [] => none
  | x :: rest =>
    match wait32Cond flags x value with
    | none => some einval
    | some true => some 0
    | some false => mpWait32 value flags rest

/-- `static_cast<gds_wait_cond_flag_t>(flags)`, where the assertion lets it pass. -/
def castCond (flags : Int) : Option WaitCond :=
  if flags = 0 then some .geq
  else if flags = 1 then some .eq
  else if flags = 2 then some .and
  else if flags = 3 then some .nor
  else none

/-- `mp_desc_queue_add_wait_value32`, with its assertion on the flags. -/
def descAddWaitFlags (dq addr value : Nat) (flags : Int) : M Int :=
  match castCond flags with
  | none => Prog.stop .assertFlags
  | some cond => mpDescQueueAddWaitValue32 dq addr value cond

/-- Add the wait to a queue, then post the queue. -/
def descWait32 (dq addr value : Nat) (flags : Int) (s : Stream) : M Int := do
  let _ ← descAddWaitFlags dq addr value flags
  mpDescQueuePostOnStream s dq

/-- The last operation of the stream is over once the word at `addr` holds `x`. -/
def LastReleased (w : World) (s : Stream) (addr x : Nat) : Prop :=
  ∃ op, (w.streams s).todo.getLast? = some op ∧
    { w with userWord := Function.update w.userWord addr x }.ready op = true

/-- The three waits for `v` with this flag are released by the word `x` when the
flag says so. The first one reads the word again and again. -/
structure ReleasedAsSaid (flags : Int) (x v : Nat) : Prop where
  cpu : (∃ n, mpWait32 v flags (List.replicate n x) = some 0) ↔ waitFlagHolds flags x v = true
  stream : ∀ addr s w tape s', mpWait32OnStream addr v flags s ⟨w, tape⟩ = (.ok 0, s') →
    (LastReleased s'.w s addr x ↔ waitFlagHolds flags x v = true)
  desc : ∀ dq addr s w tape s', descWait32 dq addr v flags s ⟨w, tape⟩ = (.ok 0, s') →
    (LastReleased s'.w s addr x ↔ waitFlagHolds flags x v = true)

/-! ## What releases them -/

/-- The loop ends when its condition holds, and not before. -/
theorem mpWait32_released {flags : Int} {x v : Nat} {b : Bool} (hb : wait32Cond flags x v = some b) :
    (∃ n, mpWait32 v flags (List.replicate n x) = some 0) ↔ b = true := by
  cases b with
  | true => exact ⟨fun _ => rfl, fun _ => ⟨1, by simp [mpWait32, hb]⟩⟩
  | false =>
    refine ⟨fun ⟨n, hn⟩ => ?_, nofun⟩
    induction n with
    | zero => cases hn
    | succ n ih =>
      rw [List.replicate_succ, mpWait32, hb] at hn
      exact ih hn

theorem lastReleased_enqueue (w : World) (s : Stream) (ops : List StreamOp) (addr x v : Nat) (cond : WaitCond) :
    LastReleased (w.enqueue s (ops ++ [.wait (.user addr) v cond])) s addr x ↔ cond.holds x v = true := by
  unfold LastReleased
  rw [World.enqueue_streams, if_pos rfl, ← List.append_assoc, List.getLast?_concat]
  simp [World.ready, World.word]

theorem mpWait32OnStream_released {addr v : Nat} {flags : Int} {s : Stream} {w : World} {tape : List Ans} {s' : Sys}
    (h : mpWait32OnStream addr v flags s ⟨w, tape⟩ = (.ok 0, s')) (x : Nat) :
    LastReleased s'.w s addr x ↔ v ≤ x := by
  unfold mpWait32OnStream at h
  split at h
  · obtain ⟨s₁, h₁, h₂⟩ := Prog.andThen_ok h
    have hw := gdsStreamPostDescriptors_ok h₂
    rw [hw, returnCode_ok h₁]
    refine (lastReleased_enqueue _ s [] addr x v .geq).trans ?_
    simp [WaitCond.holds]
  · cases h

/-- Posting a queue that ends with a wait for a word. -/
theorem descWait32_released {dq addr v : Nat} {flags : Int} {s : Stream} {w : World} {tape : List Ans} {s' : Sys}
    {cond : WaitCond} (hc : castCond flags = some cond) (h : descWait32 dq addr v flags s ⟨w, tape⟩ = (.ok 0, s'))
    (x : Nat) : LastReleased s'.w s addr x ↔ cond.holds x v = true := by
  obtain ⟨r, s₁, h₁, h₂⟩ := Prog.bind_eq_ok h
  rw [descAddWaitFlags, hc] at h₁
  cases h₁
  have hq : (w.pushDesc dq (.waitValue32 addr v cond)).descQueues dq =
      w.descQueues dq ++ [.waitValue32 addr v cond] := by
    simp [World.pushDesc]
  obtain ⟨w₂, s₂, h₃, h₄⟩ := Prog.bind_eq_ok h₂
  cases h₃
  rw [if_neg (by simp [World.pushDesc])] at h₄
  obtain ⟨ret, s₃, h₅, h₆⟩ := Prog.bind_eq_ok h₄
  have hw := returnCode_ok h₅
  dsimp only at h₆ hw
  split at h₆
  · rename_i hret
    cases h₆
    show LastReleased (((launchAll s₃.w _).enqueue s ((s₃.w.descQueues dq).map s₃.w.descOp)).flushDescs dq) s addr x ↔ _
    rw [hw, hq, List.map_append]
    exact lastReleased_enqueue _ s _ addr x v cond
  · rename_i hret
    cases h₆
    exact absurd rfl hret

/-- The wait on a stream can be posted with each flag. -/
theorem mpWait32OnStream_posts {flags : Int} (hf : flags = mpWaitEq ∨ flags = mpWaitGeq ∨ flags = mpWaitAnd) (v : Nat) :
    ∃ s', mpWait32OnStream 0 v flags 0 ⟨World.init, []⟩ = (.ok 0, s') := by
  rw [mpWait32OnStream, if_pos hf]
  exact ⟨_, rfl⟩

/-- For any word and value and each of the three flags: the wait on the CPU,
the wait on a stream and the posted wait descriptor are all released as the
flag says exactly for GEQ, for EQ while the word is below the value, and for
AND where GEQ gives the same answer. -/
theorem waits_are_released_as_said {flags : Int} (hf : flags = mpWaitGeq ∨ flags = mpWaitEq ∨ flags = mpWaitAnd)
    (x v : Nat) : ReleasedAsSaid flags x v ↔ flags = mpWaitGeq ∨ (flags = mpWaitEq ∧ x < v) ∨
      (flags = mpWaitAnd ∧ (v ≤ x ↔ x &&& v ≠ 0)) := by
  rcases hf with rfl | rfl | rfl
  · -- GEQ: all three translations are the comparison
    refine ⟨fun _ => .inl rfl, fun _ => ⟨?_, fun addr s w tape s' h => ?_, fun dq addr s w tape s' h => ?_⟩⟩
    · exact mpWait32_released rfl
    · rw [mpWait32OnStream_released h]
      exact decide_eq_true_iff.symm
    · exact descWait32_released rfl h x
  · -- EQ: the CPU waits for a greater word, the stream for one that is not smaller
    have hsaid : waitFlagHolds mpWaitEq x v = true ↔ x = v := beq_iff_eq
    have hcpu : (∃ n, mpWait32 v mpWaitEq (List.replicate n x) = some 0) ↔ v < x :=
      (mpWait32_released rfl).trans decide_eq_true_iff
    constructor
    · intro h
      have h₁ := hcpu.symm.trans (h.cpu.trans hsaid)
      refine .inr (.inl ⟨rfl, ?_⟩)
      omega
    · rintro (he | ⟨-, hlt⟩ | ⟨he, -⟩)
      · cases he
      · refine ⟨?_, fun addr s w tape s' h => ?_, fun dq addr s w tape s' h => ?_⟩
        · rw [hcpu, hsaid]
          omega
        · rw [mpWait32OnStream_released h, hsaid]
          omega
        · exact descWait32_released rfl h x
      · cases he
  · -- AND: only the stream goes wrong
    have hsaid : waitFlagHolds mpWaitAnd x v = true ↔ x &&& v ≠ 0 := bne_iff_ne
    constructor
    · intro h
      obtain ⟨s', hs'⟩ := mpWait32OnStream_posts (.inr (.inr rfl)) v
      exact .inr (.inr ⟨rfl, (mpWait32OnStream_released hs' x).symm.trans ((h.stream _ _ _ _ _ hs').trans hsaid)⟩)
    · rintro (he | ⟨he, -⟩ | ⟨-, hsame⟩)
      · cases he
      · cases he
      · refine ⟨mpWait32_released rfl, fun addr s w tape s' h => ?_, fun dq addr s w tape s' h => ?_⟩
        · rw [mpWait32OnStream_released h, hsaid, hsame]
        · exact descWait32_released rfl h x

/-- A wait for 5 with GEQ is released by 7 in all three ways. -/
theorem waits_are_released_as_said_geq : ReleasedAsSaid mpWaitGeq 7 5 :=
  (waits_are_released_as_said (.inl rfl) 7 5).mpr (.inl rfl)

/-- A wait for 5 with EQ: the word 5 does not release the CPU, and the word 6
releases the CPU. A wait for 4 with AND: the word 8 releases the stream. -/
theorem waits_are_released_otherwise :
    ¬ ReleasedAsSaid mpWaitEq 5 5 ∧ ¬ ReleasedAsSaid mpWaitEq 6 5 ∧ ¬ ReleasedAsSaid mpWaitAnd 8 4 := by
  refine ⟨fun h => ?_, fun h => ?_, fun h => ?_⟩
  · exact absurd ((mpWait32_released rfl).mp (h.cpu.mpr rfl)) (by decide)
  · exact absurd (h.cpu.mp ⟨1, rfl⟩) (by decide)
  · obtain ⟨s', hs'⟩ := mpWait32OnStream_posts (.inr (.inr rfl)) 4
    exact absurd ((h.stream _ _ _ _ _ hs').mp ((mpWait32OnStream_released hs' 8).mpr (by decide))) (by decide)

end LibMp
