import Mathlib.Data.List.TakeWhile
import Mathlib.Order.Lattice

/-!
One pass over two sorted lists that steps both cursors after every comparison,
also when the two heads differ. A single pass may miss a common element; a pass
and its mirror image never miss the same one.
-/

namespace SortedMeet

variable {α : Type*} [LinearOrder α]

theorem dropWhile_eq_nil {c : α} {l : List α} (h : l.dropWhile (· < c) = []) :
    ∀ y ∈ l, y < c := by
  simpa using List.dropWhile_eq_nil_iff.mp h

/-- What skipping the elements below `c` leaves, and what it skips. -/
theorem dropWhile_eq_cons {c x : α} {l xs : List α} (h : l.dropWhile (· < c) = x :: xs) :
    ∃ pre, l = pre ++ x :: xs ∧ (∀ y ∈ pre, y < c) ∧ c ≤ x := by
  refine ⟨l.takeWhile (· < c), ?_, ?_, ?_⟩
  · rw [← h, List.takeWhile_append_dropWhile]
  · intro y hy
    simpa using List.mem_takeWhile_imp hy
  · have := List.head_dropWhile_not (· < c) (by simp [h] : l.dropWhile (· < c) ≠ [])
    simpa [h] using this

theorem head_le_of_mem {x v : α} {l : List α} (h : (x :: l).Pairwise (· < ·))
    (hv : v ∈ x :: l) : x ≤ v := by
  rcases List.mem_cons.mp hv with rfl | hv
  · exact le_rfl
  · exact ((List.pairwise_cons.mp h).1 v hv).le

theorem mem_of_mem_append_of_le {c v : α} {pre l : List α} (hpre : ∀ y ∈ pre, y < c)
    (hv : v ∈ pre ++ l) (hc : c ≤ v) : v ∈ l := by
  rcases List.mem_append.mp hv with hv | hv
  · exact absurd (hpre v hv) (not_lt.mpr hc)
  · exact hv

/-- The matches of one pass: skip the left elements below the right head, then
the right ones below the left head, record a match, and step both. -/
def meet : List α → List α → List α
  | _, [] => []
  | as, b :: bt =>
    match _h : as.dropWhile (· < b) with
    | [] => []
    | a :: as' =>
      match (b :: bt).dropWhile (· < a) with
      | [] => []
      | b' :: bs' => if a = b' then a :: meet as' bs' else meet as' bs'
termination_by as => as.length
decreasing_by
  all_goals
    have := (List.dropWhile_sublist (p := (· < b)) (l := as)).length_le
    rw [_h, List.length_cons] at this
    omega

theorem meet_nil_right (as : List α) : meet as [] = [] := by
  rw [meet]

theorem meet_of_dropWhile_nil {b : α} {as bt : List α} (h : as.dropWhile (· < b) = []) :
    meet as (b :: bt) = [] := by
  rw [meet]
  split
  · rfl
  · simp_all

theorem meet_nil_left (bs : List α) : meet [] bs = [] := by
  cases bs with
  | nil => exact meet_nil_right []
  | cons b bt => exact meet_of_dropWhile_nil rfl

theorem meet_of_dropWhile_cons_nil {a b : α} {as as' bt : List α}
    (h : as.dropWhile (· < b) = a :: as') (h' : (b :: bt).dropWhile (· < a) = []) :
    meet as (b :: bt) = [] := by
  rw [meet]
  split
  · rfl
  · next heq =>
    obtain ⟨rfl, rfl⟩ := List.cons.inj (h.symm.trans heq)
    rw [h']

theorem meet_of_dropWhile_cons_cons {a b b' : α} {as as' bt bs' : List α}
    (h : as.dropWhile (· < b) = a :: as') (h' : (b :: bt).dropWhile (· < a) = b' :: bs') :
    meet as (b :: bt) = if a = b' then a :: meet as' bs' else meet as' bs' := by
  rw [meet]
  split
  · next heq => exact absurd (h.symm.trans heq) (List.cons_ne_nil _ _)
  · next heq =>
    obtain ⟨rfl, rfl⟩ := List.cons.inj (h.symm.trans heq)
    rw [h']

theorem mem_of_mem_meet {v : α} (as bs : List α) (h : v ∈ meet as bs) :
    v ∈ as ∧ v ∈ bs := by
  fun_induction meet as bs with
  | case1 => simp at h
  | case2 => simp at h
  | case3 => simp at h
  | case4 as b bt as' x bs' ha hb ih =>
    obtain ⟨pa, hpa, -⟩ := dropWhile_eq_cons ha
    obtain ⟨pb, hpb, -⟩ := dropWhile_eq_cons hb
    rw [hpa, hpb]
    rcases List.mem_cons.mp h with rfl | h
    · simp
    · have := ih h
      simp [this]
  | case5 as b bt a as' ha b' bs' hb hne ih =>
    obtain ⟨pa, hpa, -⟩ := dropWhile_eq_cons ha
    obtain ⟨pb, hpb, -⟩ := dropWhile_eq_cons hb
    rw [hpa, hpb]
    have := ih h
    simp [this]

/-- Why a pass misses a common element `v`: some left element `x` below `v`
is above every right element below `v`, so that the right cursor already stood
at `v` when the left one was still at `x`. -/
theorem miss_of_notMem_meet {v : α} (as bs : List α) (ha : as.Pairwise (· < ·))
    (hb : bs.Pairwise (· < ·)) (hva : v ∈ as) (hvb : v ∈ bs) (h : v ∉ meet as bs) :
    ∃ x ∈ as, x < v ∧ (∀ y ∈ bs, y < v → y < x) ∧ ∃ b ∈ bs.head?, b ≤ x := by
  fun_induction meet as bs with
  | case1 => simp at hvb
  | case2 as b bt hd =>
    exact absurd (dropWhile_eq_nil hd v hva) (not_lt.mpr (head_le_of_mem hb hvb))
  | case3 as b bt a as' hda hdb =>
    obtain ⟨pa, rfl, hpa, hba⟩ := dropWhile_eq_cons hda
    have hva' : v < a := dropWhile_eq_nil hdb v hvb
    have hbv : b ≤ v := head_le_of_mem hb hvb
    have := mem_of_mem_append_of_le hpa hva hbv
    exact absurd (head_le_of_mem (ha.sublist (List.sublist_append_right pa _)) this)
      (not_le.mpr hva')
  | case4 as b bt as' x bs' hda hdb ih =>
    obtain ⟨pa, rfl, hpa, hba⟩ := dropWhile_eq_cons hda
    obtain ⟨pb, hpb, hpbx, hbx⟩ := dropWhile_eq_cons hdb
    have hsa := ha.sublist (List.sublist_append_right pa _)
    have hsb := (hpb ▸ hb).sublist (List.sublist_append_right pb _)
    have hbv : b ≤ v := head_le_of_mem hb hvb
    have hva' := mem_of_mem_append_of_le hpa hva hbv
    have hvb' := mem_of_mem_append_of_le hpbx (hpb ▸ hvb) (head_le_of_mem hsa hva')
    obtain ⟨hvx, hmeet⟩ := not_or.mp (mt List.mem_cons.mpr h)
    obtain ⟨y, hy, hyv, hys, -⟩ := ih hsa.of_cons hsb.of_cons
      ((List.mem_cons.mp hva').resolve_left hvx) ((List.mem_cons.mp hvb').resolve_left hvx) hmeet
    have hxy : x < y := (List.pairwise_cons.mp hsa).1 y hy
    refine ⟨y, by simp [hy], hyv, ?_, b, rfl, (hba.trans_lt hxy).le⟩
    intro z hz hzv
    rw [hpb, List.mem_append, List.mem_cons] at hz
    rcases hz with hz | rfl | hz
    · exact (hpbx z hz).trans hxy
    · exact hxy
    · exact hys z hz hzv
  | case5 as b bt a as' hda b' bs' hdb hne ih =>
    obtain ⟨pa, rfl, hpa, hba⟩ := dropWhile_eq_cons hda
    obtain ⟨pb, hpb, hpbx, hab⟩ := dropWhile_eq_cons hdb
    have hsa := ha.sublist (List.sublist_append_right pa _)
    have hsb := (hpb ▸ hb).sublist (List.sublist_append_right pb _)
    have hlt : a < b' := lt_of_le_of_ne hab hne
    have hva' := mem_of_mem_append_of_le hpa hva (head_le_of_mem hb hvb)
    have hvb' := mem_of_mem_append_of_le hpbx (hpb ▸ hvb) (head_le_of_mem hsa hva')
    have hav : a < v := hlt.trans_le (head_le_of_mem hsb hvb')
    have hva'' := (List.mem_cons.mp hva').resolve_left hav.ne'
    rcases List.mem_cons.mp hvb' with rfl | hvb''
    · -- the right cursor reached `v` while the left one was at `a < v`
      refine ⟨a, by simp, hav, ?_, b, rfl, hba⟩
      intro z hz hzv
      rw [hpb, List.mem_append] at hz
      rcases hz with hz | hz
      · exact hpbx z hz
      · exact absurd (head_le_of_mem hsb hz) (not_le.mpr hzv)
    · obtain ⟨y, hy, hyv, hys, c, hc, hcy⟩ := ih hsa.of_cons hsb.of_cons hva'' hvb'' h
      have hay : a < y := (List.pairwise_cons.mp hsa).1 y hy
      have hby : b' < y :=
        ((List.pairwise_cons.mp hsb).1 c (List.mem_of_mem_head? hc)).trans_le hcy
      refine ⟨y, by simp [hy], hyv, ?_, b, rfl, (hba.trans_lt hay).le⟩
      intro z hz hzv
      rw [hpb, List.mem_append, List.mem_cons] at hz
      rcases hz with hz | rfl | hz
      · exact (hpbx z hz).trans hay
      · exact hby
      · exact hys z hz hzv

/-- A pass and its mirror image together find every common element. -/
theorem mem_meet_or_mem_meet {v : α} {as bs : List α} (ha : as.Pairwise (· < ·))
    (hb : bs.Pairwise (· < ·)) (hva : v ∈ as) (hvb : v ∈ bs) :
    v ∈ meet as bs ∨ v ∈ meet bs as := by
  by_contra hc
  push Not at hc
  obtain ⟨x, hx, hxv, hxs, -⟩ := miss_of_notMem_meet as bs ha hb hva hvb hc.1
  obtain ⟨y, hy, hyv, hys, -⟩ := miss_of_notMem_meet bs as hb ha hvb hva hc.2
  exact lt_asymm (hxs y hy hyv) (hys x hx hxv)

end SortedMeet
