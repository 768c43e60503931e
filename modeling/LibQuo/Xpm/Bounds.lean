import LibQuo.Xpm.Tiles

/-!
When the views stay inside the segment. The segment is as long as the total of the sizes,
which wraps; so do the offset and the extent of a view, but each of them on its own.
-/

namespace LibQuo.Xpm
open CMem Sm Spmd Tiling

/-- Every view on the own context ends, as an exact integer, where the segment does or before. -/
def ViewsInside (n : Nat) (xpm : Context) : Prop :=
  ∀ i j : Nat, i ≤ j → j < n → ∃ v, viewByQidRange xpm i j = .ok v ∧
    v.base.store = xpm.qsmSegment.segBasep ∧
    v.base.offset.toNat + v.extent.toNat ≤ xpm.globalSize.toNat

namespace Call

variable {n : Nat} {call : Call n} {p : Fin n} {xpm : Context}

/-- Without a wrap the views are runs of tiles. -/
theorem Allocated.viewsInside (h : call.Allocated p xpm)
    (htotal : (exact call.sizes).sum < 2 ^ 64) : ViewsInside n xpm := by
  intro i j hij hj
  obtain ⟨v, hv, hstore, hoff, hext⟩ := h.view htotal hij hj
  refine ⟨v, hv, hstore, ?_⟩
  rw [hoff, hext, h.total htotal, offset_add_extent _ (by omega)]
  exact offset_le_sum _ (by simp [length_sizes]; omega)

/-- The piece at which the sum of the sizes wraps ends behind any segment. -/
theorem Allocated.wraps_outside (h : call.Allocated p xpm)
    (htotal : 2 ^ 64 ≤ (exact call.sizes).sum) : ¬ViewsInside n xpm := by
  intro hinside
  obtain ⟨k, hk, hbegin, hend⟩ := exists_offset_lt_le (exact call.sizes) (Nat.two_pow_pos 64) htotal
  have hkn : k < n := by simpa [length_sizes] using hk
  have hlen : k < xpm.localSizes.length := by rwa [h.localSizes, length_sizes]
  obtain ⟨v, hv, -, hoff, hext⟩ := viewByQidRange_spec xpm le_rfl hlen
  obtain ⟨w, hw, -, hle⟩ := hinside k k le_rfl hkn
  obtain rfl : v = w := Except.ok.inj (hv.symm.trans hw)
  rw [h.localSizes, Nat.mod_eq_of_lt hbegin] at hoff
  have hpiece : extent (exact call.sizes) k (k + 1) < 2 ^ 64 := by
    have hsize : (exact call.sizes)[k] < 2 ^ 64 := by
      simp only [exact, List.getElem_map]
      exact UInt64.toNat_lt _
    rw [extent_succ _ le_rfl hk]
    simpa [extent] using hsize
  rw [h.localSizes, Nat.mod_eq_of_lt hpiece] at hext
  have hadd := offset_add_extent (exact call.sizes) (Nat.le_succ k)
  have hglobal := xpm.globalSize.toNat_lt
  rw [hoff, hext, hadd] at hle
  exact absurd (hend.trans hle) (Nat.not_le.mpr hglobal)

variable [NeZero n] {s : Group n Act Coll Local Files Packet (Halt Int)}

/-- **Inside the segment.** After a successful allocation, the views of a process stay inside
the segment exactly if the exact total of the sizes fits a word. -/
theorem viewsInside_iff (call : Call n) (hr : Reachable call.protocol s)
    (hdone : ∀ p, (s.proc p).todo = [] ∧ (s.proc p).failed = none) (p : Fin n) :
    ViewsInside n (s.proc p).loc.xpm ↔ (exact call.sizes).sum < 2 ^ 64 := by
  have h : call.Allocated p (s.proc p).loc.xpm := allocated hr (hdone p).1
  constructor
  · intro hinside
    by_contra htotal
    exact h.wraps_outside (Nat.not_lt.mp htotal) hinside
  · exact h.viewsInside

theorem oneSidedCall_viewsInside :
    ∃ s, Reachable oneSidedCall.protocol s ∧ ∀ p, ViewsInside 2 (s.proc p).loc.xpm := by
  obtain ⟨s, hr, hdone⟩ := completes oneSidedCall_noFailure (by decide)
  exact ⟨s, hr, fun p => (viewsInside_iff oneSidedCall hr hdone p).mpr (by decide)⟩

theorem mem_failsWith_of_none (_ : Fin 2) (a : Act) (e : Rc) (h : (none : Option Rc) = some e) :
    e ∈ a.failsWith := by
  cases h

/-- Process 0 asks for 8192 bytes, and process 1 for `(size_t)-4096`. -/
def wrappingCall : Call 2 where
  localSize p := if p.val = 0 then 8192 else 18446744073709547520
  segName := .ok ⟨[47, 120, 51], by decide⟩
  keeps _ := false
  fault _ _ := none
  fault_mem := mem_failsWith_of_none

theorem wrappingCall_noFailure : NoFailure wrappingCall := ⟨fun _ _ => rfl, ⟨_, rfl⟩⟩

/-- Both processes succeed, with a segment of 4096 bytes and a view of 8192. -/
theorem wrappingCall_outside : ∃ s, Reachable wrappingCall.protocol s ∧
    (∀ p, (s.proc p).todo = [] ∧ (s.proc p).failed = none) ∧
    ∀ p, (s.proc p).loc.xpm.globalSize.toNat = 4096 ∧
      (∃ v, viewByQidRange (s.proc p).loc.xpm (0 : Nat) (0 : Nat) = .ok v ∧
        v.base.offset.toNat = 0 ∧ v.extent.toNat = 8192) ∧
      ¬ViewsInside 2 (s.proc p).loc.xpm := by
  obtain ⟨s, hr, hdone⟩ := completes wrappingCall_noFailure (by decide)
  refine ⟨s, hr, hdone, fun p => ?_⟩
  have h : wrappingCall.Allocated p (s.proc p).loc.xpm := allocated hr (hdone p).1
  have hlen : 0 < (s.proc p).loc.xpm.localSizes.length := by
    rw [h.localSizes, length_sizes]
    decide
  obtain ⟨v, hv, -, hoff, hext⟩ := viewByQidRange_spec (s.proc p).loc.xpm le_rfl hlen
  rw [h.localSizes] at hoff hext
  exact ⟨h.globalSize.trans (by decide), ⟨v, hv, hoff.trans (by decide), hext.trans (by decide)⟩,
    h.wraps_outside (by decide)⟩

end Call

end LibQuo.Xpm
