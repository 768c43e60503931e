import LibQuo.Xpm.SameEnd

/-!
What the processes have after a successful allocation: the same sizes everywhere, and
views that are the tiles of the segment.
-/

namespace LibQuo.Xpm
open CMem Sm Spmd Tiling

/-- The bytes of a view, as offsets into the segment. -/
def View.bytes (v : View) : Set Nat :=
  Set.Ico v.base.offset.toNat (v.base.offset.toNat + v.extent.toNat)

/-- `base += offset`. -/
def Address.add (a : Address) (offset : UInt64) : Address := { a with offset := a.offset + offset }

theorem Address.eq_of_toNat {a b : Address} (hs : a.store = b.store)
    (ho : a.offset.toNat = b.offset.toNat) : a = b := by
  obtain ⟨s, o⟩ := a
  obtain ⟨s', o'⟩ := b
  obtain rfl : s = s' := hs
  obtain rfl : o = o' := UInt64.toNat_inj.mp ho
  rfl

structure TilesSegment {n : Nat} (xpm : Fin n → Context) : Prop where
  sizes : ∀ p q, (xpm p).localSizes = (xpm q).localSizes
  total : ∀ p q, (xpm p).globalSize = (xpm q).globalSize
  mapped : ∀ p, (xpm p).qsmSegment.segBasep.isSome
  first : ∀ p, ∃ v, viewByQid (xpm p) 0 = .ok v ∧ v.base = ⟨(xpm p).qsmSegment.segBasep, 0⟩
  chain : ∀ p (i j k : Nat), i ≤ j → j < k → k < n → ∃ v v₁ v₂,
    viewByQidRange (xpm p) i k = .ok v ∧ viewByQidRange (xpm p) i j = .ok v₁ ∧
    viewByQidRange (xpm p) (j + 1 : Nat) k = .ok v₂ ∧ v₁.base = v.base ∧
    v₂.base = v₁.base.add v₁.extent ∧ v.extent.toNat = v₁.extent.toNat + v₂.extent.toNat
  disjoint : ∀ p (q r : Fin n), q ≠ r → ∃ v w, viewByQid (xpm p) q.val = .ok v ∧
    viewByQid (xpm p) r.val = .ok w ∧ Disjoint v.bytes w.bytes
  cover : ∀ p x, x < (xpm p).globalSize.toNat ↔
    ∃ (q : Fin n) (v : View), viewByQid (xpm p) q.val = .ok v ∧ x ∈ v.bytes
  agree : ∀ p (q : Fin n), ∃ v w, viewByQid (xpm p) q.val = .ok v ∧ viewLocal (xpm q) = .ok w ∧
    v.base.offset = w.base.offset ∧ v.extent = w.extent

namespace Call

variable {n : Nat} [NeZero n] {call : Call n} {s : Group n Act Coll Local Files Packet (Halt Int)}

/-- Who has returned with success has its segment. -/
theorem allocated (hr : Reachable call.protocol s) {p : Fin n} (htodo : (s.proc p).todo = []) :
    call.Allocated p (s.proc p).loc.xpm := by
  obtain ⟨d, hd⟩ := ((sound call).follows call.colls_script hr).proc p
  obtain rfl : call.protocol.script p = d := by simpa [htodo] using hd.split
  rw [hd.loc]
  exact wp_end (wp_script p) hd.succeeds

section Views

variable {p : Fin n} {xpm : Context}

omit [NeZero n] in
theorem length_sizes : call.sizes.length = n := by simp [sizes]

omit [NeZero n] in
/-- A view on the own context, in terms of what everyone asked for. -/
theorem Allocated.view (h : call.Allocated p xpm) (htotal : (exact call.sizes).sum < 2 ^ 64)
    {i j : Nat} (hij : i ≤ j) (hj : j < n) :
    ∃ v, viewByQidRange xpm i j = .ok v ∧ v.base.store = xpm.qsmSegment.segBasep ∧
      v.base.offset.toNat = offset (exact call.sizes) i ∧
      v.extent.toNat = extent (exact call.sizes) i (j + 1) := by
  have hlen : j < xpm.localSizes.length := by rwa [h.localSizes, length_sizes]
  have hsum : (exact xpm.localSizes).sum < 2 ^ 64 := by rwa [h.localSizes]
  have hview := viewByQidRange_exact hsum hij hlen
  rwa [h.localSizes] at hview

omit [NeZero n] in
/-- The view of one process is its tile. -/
theorem Allocated.tile (h : call.Allocated p xpm) (htotal : (exact call.sizes).sum < 2 ^ 64)
    (q : Fin n) : ∃ v, viewByQid xpm q.val = .ok v ∧
      v.bytes = Tiling.tile (exact call.sizes) q.val ∧
      v.base.offset.toNat = offset (exact call.sizes) q.val ∧
      v.extent.toNat = extent (exact call.sizes) q.val (q.val + 1) := by
  obtain ⟨v, hv, -, hoff, hext⟩ := h.view htotal le_rfl q.isLt
  refine ⟨v, hv, ?_, hoff, hext⟩
  rw [View.bytes, hoff, hext, offset_add_extent _ (Nat.le_succ q.val)]
  rfl

omit [NeZero n] in
theorem Allocated.total (h : call.Allocated p xpm) (htotal : (exact call.sizes).sum < 2 ^ 64) :
    xpm.globalSize.toNat = (exact call.sizes).sum := by
  rw [h.globalSize, Call.total, Nat.mod_eq_of_lt htotal]

end Views

/-- **Tiling.** After a successful allocation whose exact total is not too large, the views
tile the segment and agree everywhere. -/
theorem tilesSegment (call : Call n) (hr : Reachable call.protocol s)
    (hdone : ∀ p, (s.proc p).todo = [] ∧ (s.proc p).failed = none)
    (htotal : (exact call.sizes).sum < 2 ^ 63) : TilesSegment fun p => (s.proc p).loc.xpm := by
  have h (p : Fin n) : call.Allocated p (s.proc p).loc.xpm := allocated hr (hdone p).1
  have hsum : (exact call.sizes).sum < 2 ^ 64 := htotal.trans (by decide)
  refine ⟨fun p q => ?_, fun p q => ?_, fun p => ?_, fun p => ?_, fun p i j k hij hjk hk => ?_,
    fun p q r hqr => ?_, fun p x => ?_, fun p q => ?_⟩
  · rw [(h p).localSizes, (h q).localSizes]
  · apply UInt64.toNat_inj.mp
    rw [(h p).globalSize, (h q).globalSize]
  · obtain ⟨path, -, hseg⟩ := (h p).segment
    rw [hseg]
    rfl
  · obtain ⟨v, hv, hstore, hoff, -⟩ := (h p).view hsum le_rfl (NeZero.pos n)
    exact ⟨v, hv, Address.eq_of_toNat hstore (by rw [hoff, offset_zero]; rfl)⟩
  · obtain ⟨v, hv, hstore, hoff, hext⟩ := (h p).view hsum (hij.trans hjk.le) hk
    obtain ⟨v₁, hv₁, hstore₁, hoff₁, hext₁⟩ := (h p).view hsum hij (hjk.trans hk)
    obtain ⟨v₂, hv₂, hstore₂, hoff₂, hext₂⟩ := (h p).view hsum hjk hk
    refine ⟨v, v₁, v₂, hv, hv₁, hv₂, ?_, ?_, ?_⟩
    · exact Address.eq_of_toNat (hstore₁.trans hstore.symm) (hoff₁.trans hoff.symm)
    · refine Address.eq_of_toNat (hstore₂.trans hstore₁.symm) ?_
      have hend : offset (exact call.sizes) (j + 1) < 2 ^ 64 :=
        (offset_le_sum _ (by simp [length_sizes]; omega)).trans_lt hsum
      rw [hoff₂, Address.add, UInt64.toNat_add, hoff₁, hext₁, offset_add_extent _ (by omega),
        Nat.mod_eq_of_lt hend]
    · rw [hext, hext₁, hext₂, extent_add_extent _ (by omega) (by omega)]
  · obtain ⟨v, hv, hbytes, -⟩ := (h p).tile hsum q
    obtain ⟨w, hw, hbytes', -⟩ := (h p).tile hsum r
    refine ⟨v, w, hv, hw, ?_⟩
    rw [hbytes, hbytes']
    exact tile_disjoint _ (Fin.val_ne_of_ne hqr)
  · have hcover := biUnion_tile (exact call.sizes)
    rw [length_exact, length_sizes] at hcover
    have hx : x < (exact call.sizes).sum ↔ x ∈ Set.Ico 0 (exact call.sizes).sum := by simp
    rw [(h p).total hsum, hx, ← hcover]
    simp only [Set.mem_iUnion, Finset.mem_range]
    constructor
    · rintro ⟨q, hq, hmem⟩
      obtain ⟨v, hv, hbytes, -⟩ := (h p).tile hsum ⟨q, hq⟩
      exact ⟨⟨q, hq⟩, v, hv, by rw [hbytes]; exact hmem⟩
    · rintro ⟨q, v, hv, hmem⟩
      obtain ⟨w, hw, hbytes, -⟩ := (h p).tile hsum q
      obtain rfl : v = w := by simpa [hv] using hw
      exact ⟨q, q.isLt, by rwa [hbytes] at hmem⟩
  · obtain ⟨v, hv, -, hoff, hext⟩ := (h p).tile hsum q
    obtain ⟨w, hw, -, hoff', hext'⟩ := (h q).tile hsum q
    refine ⟨v, w, hv, ?_, UInt64.toNat_inj.mp (hoff.trans hoff'.symm),
      UInt64.toNat_inj.mp (hext.trans hext'.symm)⟩
    rw [viewLocal, (h q).qid]
    exact hw

/-- A run to the end, with a view of length zero. -/
theorem oneSidedCall_tilesSegment : ∃ s, Reachable oneSidedCall.protocol s ∧
    TilesSegment fun p => (s.proc p).loc.xpm := by
  obtain ⟨s, hr, hdone⟩ := completes oneSidedCall_noFailure (by decide)
  exact ⟨s, hr, tilesSegment oneSidedCall hr hdone (by decide)⟩

end Call

end LibQuo.Xpm
