import LibQuo.Xpm.Allocate

/-!
How the allocation ends when nothing goes wrong but a segment of length zero, which
`mmap` refuses: process 0 is gone, and the others wait for it in the barrier.
-/

namespace LibQuo.Xpm.Call
open CMem Sm Spmd Tiling

variable {n : Nat} [NeZero n] {call : Call n}

structure NoFailure (call : Call n) : Prop where
  fault : ∀ p a, call.fault p a = none
  segName : ∃ path, call.segName = .ok path

theorem fails_of_noFailure (hq : NoFailure call) (p : Fin n) (a : Act) :
    call.publication.fails p a = (a == .sm .mmap && call.total == 0) := by
  obtain ⟨path, hname⟩ := hq.segName
  have hdead : call.publication.fails p a = call.dead a := by
    simp [Publication.fails, publication, hq.fault]
  rw [hdead]
  cases a with
  | xchg a => simp [dead, hname, Except.isOk, Except.toBool]
  | sm a => cases a <;> rfl
  | _ => rfl

/-- How many collectives each process enters. -/
theorem exits_script (hq : NoFailure call) (p : Fin n) :
    exits (call.publication.fails p) (call.protocol.script p) =
      if call.total = 0 then (if p = 0 then 3 else 4) else 5 := by
  have hf := fails_of_noFailure hq p
  by_cases hp : p = 0
  · subst hp
    rw [script_root]
    by_cases ht : call.total = 0
    · simp [rootScript, createdScript, sizesScript, UniqPath.rootScript, createScript, lift, exits,
        hf, ht]
    · simp [rootScript, createdScript, sizesScript, UniqPath.rootScript, createScript, lift, exits,
        hf, ht]
  · rw [script_peer call hp]
    by_cases ht : call.total = 0
    · simp [peerScript, sizesScript, UniqPath.peerScript, attachScript, lift, exits, hf, ht, hp]
    · simp [peerScript, sizesScript, UniqPath.peerScript, attachScript, lift, exits, hf, ht]

/-- If the total is not zero, everybody succeeds. -/
theorem completes (hq : NoFailure call) (ht : call.total ≠ 0) :
    ∃ s, Reachable call.protocol s ∧ ∀ p, (s.proc p).todo = [] ∧ (s.proc p).failed = none :=
  (sound call).completes call.colls_script fun p a _ => by simp [fails_of_noFailure hq, ht]

/-- **Same end.** If there are others, nobody is ever stranded and everybody returns the
same exactly when the exact total is not a multiple of the word size. -/
theorem sameEnd_iff (call : Call n) (hn : 2 ≤ n) (hq : NoFailure call) :
    (NeverStrands call.protocol ∧ EndsAlike call.protocol) ↔
      (exact call.sizes).sum % 2 ^ 64 ≠ 0 := by
  have hone : (⟨1, hn⟩ : Fin n) ≠ 0 := by simp [Fin.ext_iff]
  rw [(determined call).neverStrands_iff_exits call.colls_script]
  constructor
  · rintro ⟨h, -⟩ ht
    have htotal : call.total = 0 := ht
    have := h ⟨1, hn⟩ 0
    simp [exits_script hq, htotal, hone] at this
  · intro ht
    have htotal : call.total ≠ 0 := ht
    refine ⟨fun p q => by simp [exits_script hq, htotal], fun s hr p q _ _ => ?_⟩
    have hnone : ∀ p, (s.proc p).failed = none := fun p =>
      (sound call).failed_eq_none call.colls_script hr fun a _ => by
        simp [fails_of_noFailure hq, htotal]
    simp [hnone]

/-- Two processes of which one asks for four bytes and one for nothing. -/
def oneSidedCall : Call 2 where
  localSize p := if p.val = 0 then 4 else 0
  segName := .ok ⟨[47, 120, 49], by decide⟩
  keeps _ := false
  fault _ _ := none
  fault_mem := by simp

theorem oneSidedCall_noFailure : NoFailure oneSidedCall := ⟨fun _ _ => rfl, ⟨_, rfl⟩⟩

theorem oneSidedCall_sameEnd :
    NeverStrands oneSidedCall.protocol ∧ EndsAlike oneSidedCall.protocol :=
  (sameEnd_iff oneSidedCall le_rfl oneSidedCall_noFailure).mpr (by decide)

/-- Two processes that ask for nothing. -/
def hollowCall : Call 2 where
  localSize _ := 0
  segName := .ok ⟨[47, 120, 50], by decide⟩
  keeps _ := false
  fault _ _ := none
  fault_mem := by simp

theorem hollowCall_noFailure : NoFailure hollowCall := ⟨fun _ _ => rfl, ⟨_, rfl⟩⟩

/-- Process 0 is gone, and process 1 waits in the barrier. -/
theorem hollowCall_strands :
    ∃ s, Reachable hollowCall.protocol s ∧ StrandedBy hollowCall.protocol s 0 1 := by
  have hexits (p : Fin 2) : exits (hollowCall.publication.fails p) (hollowCall.protocol.script p) =
      if p = 0 then 3 else 4 := by
    rw [exits_script hollowCall_noFailure, if_pos (by decide)]
  refine (determined hollowCall).strands hollowCall.colls_script ?_ ?_
  · intro r
    rw [hexits, hexits]
    revert r
    decide
  · rw [hexits, hexits]
    decide

end LibQuo.Xpm.Call
