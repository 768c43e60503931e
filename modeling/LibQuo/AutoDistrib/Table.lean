import LibQuo.AutoDistrib.Pipeline

/-!
The table of process 0: which lists it makes of the bindings it reads, and for which of
them the length of the segment, kept in an `int`, leaves room.
-/

namespace LibQuo.AutoDistrib
open CMem Sm Spmd

variable {n : Nat}

/-- What process 0 reads: the resource, the process, and its binding. -/
abbrev Reads (n : Nat) := List (Nat × Fin n × Cpuset)

/-- The part of the world that process 0 alone writes. -/
abbrev Shared (n : Nat) := Files × Reads n

def World.shared (w : World n) : Shared n := (w.files, w.reads)

def lengths (rows : List (List Int)) : List Int := rows.map fun row => (row.length : Int)

theorem length_lengths (rows : List (List Int)) : (lengths rows).length = rows.length :=
  List.length_map _

theorem getD_lengths (rows : List (List Int)) (k : Nat) :
    ((lengths rows).getD k 0).toNat = (rows.getD k []).length := by
  rw [lengths, List.getD_eq_getElem?_getD, List.getD_eq_getElem?_getD, List.getElem?_map]
  cases rows[k]? <;> simp

theorem sum_lengths (rows : List (List Int)) :
    (lengths rows).sum = (rows.flatten.length : Int) := by
  induction rows with
  | nil => rfl
  | cons row rows ih =>
    rw [lengths, List.map_cons, List.sum_cons, ← lengths, ih, List.flatten_cons,
      List.length_append, Int.natCast_add]

theorem length_flatten_take_le (rows : List (List Int)) (k : Nat) :
    (rows.take k).flatten.length ≤ rows.flatten.length := by
  conv_rhs => rw [← List.take_append_drop k rows, List.flatten_append, List.length_append]
  exact Nat.le_add_right _ _

/-- A loop that has filled the entries before `k`, and fills the next one. -/
theorem set_filled {α : Type} {xs ys : List α} {k : Nat} (hxs : xs.length = k)
    (hk : k < ys.length) (v : α) : (xs ++ ys.drop k).set k v = xs ++ [v] ++ ys.drop (k + 1) := by
  rw [List.set_append_right _ _ hxs.le, hxs, Nat.sub_self, List.drop_eq_getElem_cons hk,
    List.set_cons_zero, List.append_assoc, List.singleton_append]

namespace Call

variable (call : Call n) (E : Reads n)

/-- The binding of process `p` when the resource `rid` is queried. -/
def seen (rid : Nat) (p : Fin n) : Cpuset := (E[rid * n + p]?.map fun e => e.2.2).getD ∅

def readsOf (rid : Nat) : Reads n := (List.finRange n).map fun p => (rid, p, seen E rid p)

/-- What it reads for the resources before `k`. -/
def readsUpTo (k : Nat) : Reads n := (List.range k).flatMap (readsOf E)

def idsSeen (rid : Nat) : List Int :=
  idsAmong (seen E rid) (call.objCpuset rid) (List.finRange n)

/-- The table that process 0 builds. -/
def rowsSeen : List (List Int) := (List.range call.nres).map (call.idsSeen E)

theorem length_rowsSeen : (call.rowsSeen E).length = call.nres := by simp [rowsSeen]

theorem length_readsUpTo (k : Nat) : (readsUpTo E k).length = k * n := by
  simp [readsUpTo, readsOf, List.length_flatMap]

theorem mem_readsUpTo {k rid : Nat} {p : Fin n} {b : Cpuset} :
    (rid, p, b) ∈ readsUpTo E k ↔ rid < k ∧ b = seen E rid p := by
  simp only [readsUpTo, readsOf, List.mem_flatMap, List.mem_range, List.mem_map,
    List.mem_finRange, true_and, Prod.mk.injEq]
  constructor
  · rintro ⟨_, hk, _, rfl, rfl, rfl⟩
    exact ⟨hk, rfl⟩
  · rintro ⟨hk, rfl⟩
    exact ⟨rid, hk, p, rfl, rfl, rfl⟩

/-- A world in which the next binding read is the one `E` has. -/
def rootWorld (x : Shared n) : World n where
  binding _ := (E[x.2.length]?.map fun e => e.2.2).getD ∅
  entered _ := none
  reads := x.2
  files := x.1

section Root

variable [NeZero n]

/-- A step of process 0, which is taken back if it fails. -/
def rootAct (a : Act n) (x : Local × Shared n) : Local × Shared n :=
  match call.perform 0 a x.1 (rootWorld E x.2) with
  | (.ok loc, w) => (loc, w.shared)
  | (.error _, _) => x

def rootActs (as : List (Act n)) (x : Local × Shared n) : Local × Shared n :=
  as.foldl (fun x a => call.rootAct E a x) x

variable {call E} {x : Local × Shared n}

theorem rootActs_append (as bs : List (Act n)) :
    call.rootActs E (as ++ bs) x = call.rootActs E bs (call.rootActs E as x) := List.foldl_append

/-- The turns of one query, if `held` is what is read in them. -/
theorem rootActs_qidsQuery (rid : Nat) (held : Fin n → Cpuset) (ms : List (Fin n))
    (x : Local × Shared n)
    (hread : ∀ i (h : i < ms.length),
      (E[x.2.2.length + i]?.map fun e => e.2.2).getD ∅ = held ms[i]) :
    call.rootActs E (ms.map (.qidsQuery rid)) x =
      ({ x.1 with smpranks := x.1.smpranks ++ idsAmong held (call.objCpuset rid) ms }, x.2.1,
        x.2.2 ++ ms.map fun m => (rid, m, held m)) := by
  induction ms generalizing x with
  | nil =>
    have hnil : idsAmong held (call.objCpuset rid) [] = [] := rfl
    rw [List.map_nil, hnil, List.map_nil, List.append_nil, List.append_nil]
    rfl
  | cons m ms ih =>
    have hm : (rootWorld E x.2).binding m = held m := hread 0 (Nat.succ_pos _)
    have hact : call.rootAct E (.qidsQuery rid m) x =
        ({ x.1 with smpranks :=
            if (held m ∩ call.objCpuset rid).Nonempty then x.1.smpranks ++ [(m : Int)]
            else x.1.smpranks }, x.2.1, x.2.2 ++ [(rid, m, held m)]) := by
      simp only [rootAct, perform, hm, World.shared]
      rfl
    rw [List.map_cons, rootActs, List.foldl_cons, hact, ← rootActs, ih _ fun i h => ?_]
    · rw [idsAmong_cons]
      by_cases h : (held m ∩ call.objCpuset rid).Nonempty
      · simp [h]
      · simp [h]
    · have hnext := hread (i + 1) (Nat.succ_lt_succ h)
      rw [List.length_append, List.length_singleton, Nat.add_assoc, Nat.add_comm 1 i]
      exact hnext

/-- One query. -/
theorem rootActs_qidsInType (rid : Nat) (hlen : x.2.2.length = rid * n) :
    call.rootActs E (qidsInType n rid) x =
      ({ x.1 with
          smpranks := call.idsSeen E rid
          nranksInRes := x.1.nranksInRes.set rid (call.idsSeen E rid).length
          rankIdsInRes := x.1.rankIdsInRes.set rid (call.idsSeen E rid) }, x.2.1,
        x.2.2 ++ readsOf E rid) := by
  have hquery := @rootActs_qidsQuery n call E _ rid (seen E rid) (List.finRange n)
    (call.rootAct E (.qidsBegin rid) x) fun i h => by
      simp only [List.getElem_finRange, seen]
      rw [show (call.rootAct E (.qidsBegin rid) x).2.2 = x.2.2 from rfl, hlen]
      rfl
  rw [qidsInType, List.cons_append, rootActs, List.foldl_cons, ← rootActs, rootActs_append, hquery]
  simp [rootActs, rootAct, perform, World.shared, rootWorld, idsSeen, readsOf]

/-- The queries fill the two arrays, and nothing else. -/
theorem rootActs_queries (hcounts : x.1.nranksInRes.length = call.nres)
    (hrows : x.1.rankIdsInRes.length = call.nres) (hreads : x.2.2 = []) :
    ∃ smpranks, call.rootActs E call.queries x =
      ({ x.1 with
          smpranks := smpranks
          nranksInRes := lengths (call.rowsSeen E)
          rankIdsInRes := call.rowsSeen E }, x.2.1, readsUpTo E call.nres) := by
  obtain ⟨loc, fs, reads⟩ := x
  simp only at hcounts hrows hreads
  subst hreads
  have hupTo : ∀ k ≤ call.nres, ∃ smpranks,
      call.rootActs E ((List.range k).flatMap (qidsInType n)) (loc, fs, []) =
        ({ loc with
            smpranks := smpranks
            nranksInRes := lengths ((List.range k).map (call.idsSeen E)) ++ loc.nranksInRes.drop k
            rankIdsInRes := (List.range k).map (call.idsSeen E) ++ loc.rankIdsInRes.drop k },
          fs, readsUpTo E k) := by
    intro k hk
    induction k with
    | zero => exact ⟨loc.smpranks, rfl⟩
    | succ k ih =>
      obtain ⟨_, hrun⟩ := ih (by omega)
      refine ⟨call.idsSeen E k, ?_⟩
      rw [List.range_succ, List.flatMap_append, List.flatMap_singleton, rootActs_append, hrun,
        rootActs_qidsInType k (length_readsUpTo E k)]
      have hlen : ((List.range k).map (call.idsSeen E)).length = k := by simp
      have hcount := set_filled ((length_lengths _).trans hlen) (hcounts ▸ hk)
        ((call.idsSeen E k).length : Int)
      have hrow := set_filled hlen (hrows ▸ hk) (call.idsSeen E k)
      simp only [hcount, hrow]
      simp [lengths, readsUpTo, List.range_succ]
  obtain ⟨smpranks, hrun⟩ := hupTo call.nres le_rfl
  refine ⟨smpranks, ?_⟩
  rw [queries, hrun, List.drop_of_length_le hcounts.le, List.drop_of_length_le hrows.le,
    List.append_nil, List.append_nil]
  rfl

end Root

/-! ## The length of the segment -/

/-- How many bytes process 0 asks for, for a table `rows`. -/
def size (rows : List (List Int)) : Nat := toSize (call.segLen rows.flatten.length)

/-- The steps of process 0 that the length of the segment makes fail, for a table `rows`. -/
def lacks (rows : List (List Int)) : Act n → Bool
  | .sm .ftruncate => offLimit ≤ call.size rows
  | .sm .mmap => call.size rows = 0
  | .writeHeader => call.size rows < toSize call.headerLen
  | .writeRow k =>
      call.size rows < 4 * (call.headerInts + (rows.take (k + 1)).flatten.length)
  | _ => false

/-- The size of the packed table is an `int`. -/
def Fits (rows : List (List Int)) : Prop :=
  4 * ((call.nres : Int) + (rows.flatten.length : Int)) ≤ intMax

/-- How many resources have any unit. -/
def coverable : Nat := (List.range call.nres).countP fun rid => (call.objCpuset rid).Nonempty

/-- The length of the segment does not wrap, whatever the bindings are. -/
def Roomy : Prop :=
  0 < call.headerLen ∧ call.headerLen + 4 * ((n * call.coverable : Nat) : Int) ≤ intMax

instance : Decidable call.Roomy := inferInstanceAs (Decidable (_ ∧ _))

/-- The packed table fits, whatever the bindings are. -/
def FitsAlways : Prop := 4 * ((call.nres : Int) + ((n * call.coverable : Nat) : Int)) ≤ intMax

instance : Decidable call.FitsAlways := inferInstanceAs (Decidable (_ ≤ _))

variable {call} {rows : List (List Int)}

theorem segLen_eq (numEntries : Int) :
    call.segLen numEntries = wrapInt (call.headerLen + numEntries * 4) := by
  rw [segLen, wrapInt_add_wrapInt_mul]

theorem headerLen_range : -2 ^ 31 ≤ call.headerLen ∧ call.headerLen ≤ intMax := wrapInt_range _

theorem size_of_room (h₀ : 0 < call.headerLen)
    (h : call.headerLen + 4 * (rows.flatten.length : Int) ≤ intMax) :
    (call.size rows : Int) = call.headerLen + 4 * rows.flatten.length := by
  rw [size, segLen_eq, wrapInt_of_range (by omega) (by omega),
    toSize_of_nonneg (by omega) (by omega)]
  omega

theorem four_headerInts_le : 4 * call.headerInts ≤ toSize call.headerLen := Nat.mul_div_le _ 4

/-- The header has no more counts than there are. -/
theorem headerInts_le (h : toSize call.headerLen < offLimit) : call.headerInts ≤ call.nres := by
  have hrange := call.headerLen_range
  have hnonneg : 0 ≤ call.headerLen := by
    by_contra hneg
    exact absurd (toSize_of_neg hrange.1 (not_le.mp hneg)) (not_le.mpr h)
  have hle : call.headerLen ≤ (call.nres : Int) * 4 := wrapInt_le (by omega)
  have heq := toSize_of_nonneg hnonneg hrange.2
  have hints : 4 * call.headerInts ≤ toSize call.headerLen := four_headerInts_le
  omega

theorem lacks_of_room (h₀ : 0 < call.headerLen)
    (h : call.headerLen + 4 * (rows.flatten.length : Int) ≤ intMax) (a : Act n) :
    call.lacks rows a = false := by
  have hsize := size_of_room h₀ h
  have hheader := toSize_of_nonneg h₀.le call.headerLen_range.2
  cases a with
  | writeHeader =>
    simp only [lacks, decide_eq_false_iff_not]
    omega
  | writeRow k =>
    have hpart := length_flatten_take_le rows (k + 1)
    have hints : 4 * call.headerInts ≤ toSize call.headerLen := four_headerInts_le
    simp only [lacks, decide_eq_false_iff_not]
    omega
  | sm b =>
    cases b with
    | ftruncate =>
      simp only [lacks, decide_eq_false_iff_not]
      unfold intMax offLimit at *
      omega
    | mmap =>
      simp only [lacks, decide_eq_false_iff_not]
      omega
    | _ => rfl
  | _ => rfl

variable (call) in
/-- A segment whose length is not positive cannot be made. -/
theorem lacks_create_iff : (call.lacks rows (.sm .ftruncate : Act n) = true ∨
    call.lacks rows (.sm .mmap : Act n) = true) ↔ call.segLen rows.flatten.length ≤ 0 := by
  have hrange : -2 ^ 31 ≤ call.segLen rows.flatten.length ∧
      call.segLen rows.flatten.length ≤ intMax := wrapInt_range _
  simp only [lacks, decide_eq_true_eq]
  by_cases hneg : call.segLen rows.flatten.length < 0
  · exact iff_of_true (.inl (toSize_of_neg hrange.1 hneg)) hneg.le
  · have hsize : (call.size rows : Int) = call.segLen rows.flatten.length :=
      toSize_of_nonneg (not_lt.mp hneg) hrange.2
    unfold intMax offLimit at *
    omega

theorem Fits.headerLen (h : call.Fits rows) : call.headerLen = 4 * (call.nres : Int) := by
  unfold Fits at h
  rw [Call.headerLen, wrapInt_of_range (by omega) (by omega)]
  omega

/-- A table that fits has all its counts in the header. -/
theorem Fits.headerInts (h : call.Fits rows) : call.headerInts = call.nres := by
  have hlen := h.headerLen
  unfold Fits at h
  have heq := toSize_of_nonneg (x := call.headerLen) (by omega) (by omega)
  unfold Call.headerInts
  omega

theorem Fits.lacks (h : call.Fits rows) (hres : call.nres ≠ 0) (a : Act n) :
    call.lacks rows a = false := by
  have hlen := h.headerLen
  unfold Fits at h
  exact lacks_of_room (by omega) (by omega) a

variable (call) in
/-- A row has at most one entry for every process, and none if the resource has no unit. -/
theorem entries_le (b : Nat → Fin n → Cpuset) (rids : List Nat) :
    ((rids.map fun rid => idsAmong (b rid) (call.objCpuset rid) (List.finRange n)).flatten).length ≤
      n * rids.countP fun rid => (call.objCpuset rid).Nonempty := by
  induction rids with
  | nil => exact Nat.zero_le _
  | cons rid rids ih =>
    have hrow : (idsAmong (b rid) (call.objCpuset rid) (List.finRange n)).length ≤
        n * if (call.objCpuset rid).Nonempty then 1 else 0 := by
      by_cases h : (call.objCpuset rid).Nonempty
      · rw [if_pos h, Nat.mul_one, idsAmong, List.length_map]
        exact (List.length_filter_le _ _).trans (List.length_finRange).le
      · have hobj : call.objCpuset rid = ∅ := Finset.not_nonempty_iff_eq_empty.mp h
        rw [if_neg h, hobj]
        simp [idsAmong]
    rw [List.map_cons, List.flatten_cons, List.length_append, List.countP_cons, Nat.mul_add]
    simp only [decide_eq_true_eq]
    omega

theorem length_rowsSeen_flatten_le : (call.rowsSeen E).flatten.length ≤ n * call.coverable :=
  call.entries_le (seen E) _

theorem Roomy.lacks (h : call.Roomy) (hle : rows.flatten.length ≤ n * call.coverable)
    (a : Act n) : call.lacks rows a = false := by
  have hroom := h.2
  exact lacks_of_room h.1 (by omega) a

theorem FitsAlways.fits (h : call.FitsAlways) : call.Fits (call.rowsSeen E) := by
  have hle : (call.rowsSeen E).flatten.length ≤ n * call.coverable :=
    length_rowsSeen_flatten_le E
  unfold FitsAlways at h
  unfold Fits
  omega

theorem FitsAlways.roomy (h : call.FitsAlways) (hres : call.nres ≠ 0) : call.Roomy := by
  unfold FitsAlways at h
  have hlen : call.headerLen = 4 * (call.nres : Int) := by
    rw [headerLen, wrapInt_of_range (by omega) (by omega)]
    omega
  exact ⟨by omega, by omega⟩

end Call

end LibQuo.AutoDistrib
