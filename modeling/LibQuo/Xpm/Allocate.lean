import LibQuo.Xpm.Views

/-!
The allocation replayed: process 0 makes the segment in front of the first barrier,
and the others attach to it between the two.
-/

namespace LibQuo.Xpm.Call
open CMem Sm Spmd Tiling

variable {n : Nat} [NeZero n] (call : Call n)

def sizes : List UInt64 := (List.finRange n).map call.localSize

/-- The size of the segment: the exact total, up to the wrap. -/
def total : Nat := (exact call.sizes).sum % 2 ^ 64

/-- The steps that fail whatever can be allocated. -/
def dead : Act → Bool
  | .xchg a => a == .checkPlen && !call.segName.isOk
  | .sm a => a == .mmap && call.total == 0
  | _ => false

/-- The others open the segment once process 0 has made it. -/
def behind : Act → Option (List (Instr Act Coll))
  | .sm .openRdwr => some createdScript
  | _ => none

def packet (p : Fin n) : Coll → Packet
  | .allgather => .size (call.localSize p).toInt64
  | .smBarrier => .uniq .nothing
  | .xchg c => .uniq (if p = 0 then UniqPath.message call.segName c else .nothing)

/-- Where the others execute what. -/
def peerPlace : Act → Nat → Prop
  | .sm a, k => a ∈ attachScript ∧ k = 4
  | _, _ => True

theorem placed_peer {p : Fin n} (hp : p ≠ 0) : Placed peerPlace 0 (call.protocol.script p) := by
  simp [script_peer call hp, peerScript, sizesScript, UniqPath.peerScript, attachScript, Placed,
    lift, peerPlace]

theorem peerPlace_of_mem {p : Fin n} (hp : p ≠ 0) {a : Act} (ha : .act a ∈ call.protocol.script p) :
    ∃ k, peerPlace a k := by
  obtain ⟨d, rest, hd⟩ := List.append_of_mem ha
  exact ⟨_, (call.placed_peer hp).at hd⟩

theorem perform_error {p : Fin n} {a : Act} {loc : Local} {fs fs' : Files} {e : Halt Int}
    (h : call.perform p a loc fs = (.error e, fs')) : fs' = fs := by
  cases a with
  | sm a =>
    obtain ⟨herr, hfs⟩ := Prod.mk.inj h
    cases hx : Sm.exec call.keeps loc.xchg.result loc.xpm.globalSize.toNat a
      loc.xpm.qsmSegment fs with
    | mk r fs₁ =>
      rw [hx] at herr hfs
      cases r with
      | error e => exact hfs ▸ exec_error hx
      | ok h => simp [Except.map] at herr
  | xchg a | copyBack => exact (Prod.mk.inj h).2.symm
  | _ => simp [perform] at h

theorem perform_quiet {p : Fin n} {a : Act} {k : Nat} (ha : peerPlace a k) (loc : Local)
    (fs : Files) : (call.perform p a loc fs).2 = fs := by
  cases a with
  | sm a => exact exec_attach ha.1
  | _ => rfl

theorem perform_blind {p : Fin n} {a : Act} {k : Nat} (ha : peerPlace a k) (hb : behind a = none)
    (loc : Local) (fs fs' : Files) :
    (call.perform p a loc fs).1 = (call.perform p a loc fs').1 := by
  cases a with
  | sm a =>
    have hne : a ≠ .openRdwr := by
      rintro rfl
      simp [behind] at hb
    simp only [perform]
    rw [exec_blind ha.1 hne]
  | _ => rfl

def publication : Publication call.protocol where
  writer := 0
  fault p a := (call.fault p a).map fun e => .code e.code
  perform := call.perform
  dead _ := call.dead
  behind := behind
  msg := call.packet
  exec_eq p a loc fs := by
    simp only [protocol]
    cases call.fault p a <;> rfl
  error p a loc fs e fs' h := call.perform_error h
  idle p fs fs' h := h.elim
  quiet p a loc fs hp ha := by
    obtain ⟨k, hk⟩ := call.peerPlace_of_mem hp ha
    exact call.perform_quiet hk loc fs
  blind p a loc fs fs' hp ha hb := by
    obtain ⟨k, hk⟩ := call.peerPlace_of_mem hp ha
    exact call.perform_blind hk hb loc fs fs'
  window p a xs d rest hp hd hb := by
    have hk := (call.placed_peer hp).at hd
    cases a with
    | sm a =>
      cases a with
      | openRdwr =>
        obtain rfl : createdScript = xs := by simpa [behind] using hb
        refine ⟨.smBarrier, .smBarrier, [.act (.sm .unlink)], ?_, rfl, rfl, ?_⟩
        · simp [script_root, rootScript]
        · rw [Nat.zero_add] at hk
          rw [hk.2]
          simp [createdScript, sizesScript, UniqPath.rootScript, createScript, colls, lift]
      | _ => simp [behind] at hb
    | _ => simp [behind] at hb
  recv p c f loc hval hsome := by
    have hq (q : Fin n) : call.protocol.root c = none ∨ call.protocol.root c = some q →
        f q = some (call.packet q c) := by
      intro hroot
      obtain ⟨v, hv⟩ := Option.isSome_iff_exists.mp (hsome q hroot)
      rw [hv, hval q v hv]
    cases c with
    | allgather =>
      have hf : f = fun q => some (call.packet q .allgather) := funext fun q => hq q (.inl rfl)
      rw [hf]
    | smBarrier => rfl
    | xchg c => simp only [protocol, hq 0 (.inr rfl)]

/-! ## The scripts replayed -/

def uniqPath : UniqPath.Within call.publication call.segName Act.xchg Coll.xchg where
  get loc := loc.xchg
  set x loc := { loc with xchg := x }
  err e := e
  get_set _ _ := rfl
  set_set _ _ _ := rfl
  root a loc w := by
    simp only [publication, perform, if_pos]
    cases UniqPath.execRoot call.segName a loc.xchg <;> rfl
  peer p a loc w hp := by
    have hp : p ≠ 0 := hp
    simp only [publication, perform, if_neg hp]
    cases UniqPath.execPeer a loc.xchg <;> rfl
  dead _ _ := rfl
  send_root c loc h := by simp [publication, protocol, packet, h]
  send_peer p c loc hp := by
    have hp : p ≠ 0 := hp
    simp [publication, protocol, packet, hp]
  recv_root c v loc := by simp [publication, protocol]
  recv_peer p c loc hp := by
    have hp : p ≠ 0 := hp
    simp [publication, protocol, packet, hp, Packet.recvUniq]

def segment : Sm.Within call.publication Act.sm (call.total == 0) where
  keeps := call.keeps
  get loc := loc.xpm.qsmSegment
  set h loc := { loc with xpm := { loc.xpm with qsmSegment := h } }
  path loc := loc.xchg.result
  size loc := loc.xpm.globalSize.toNat
  get_set _ _ := rfl
  set_set _ _ _ := rfl
  path_set _ _ := rfl
  size_set _ _ := rfl
  perform _ _ _ _ := rfl
  dead _ _ := rfl

/-- What `p` knows once the sizes are summed. -/
structure Sized (p : Fin n) (xpm : Context) : Prop where
  qid : xpm.qid = p.val
  localSizes : xpm.localSizes = call.sizes
  globalSize : xpm.globalSize.toNat = call.total

/-- What `p` has once it has the segment. -/
structure Allocated (p : Fin n) (xpm : Context) : Prop extends call.Sized p xpm where
  segment : ∃ path, call.segName = .ok path ∧ xpm.qsmSegment = .mapped path call.total 0

variable {call} {p : Fin n} {t : List (Instr Act Coll)} {B : Local × Files → Prop} {fs : Files}

/-- The sizes are exchanged and summed. -/
theorem wp_sizes (h : ∀ y, call.Sized p y.xpm → call.publication.Wp p t B (y, fs)) :
    call.publication.Wp p (sizesScript ++ t) B (.fresh, fs) := by
  have hsizes : ((List.finRange n).map fun q => (call.localSize q).toInt64).map Int64.toUInt64 =
      call.sizes := by simp [sizes]
  have hlen : (⟨p.val, p == 0, .fresh, call.localSize p, 0, call.sizes⟩ :
      Context).localSizes.length = n := by simp [sizes]
  obtain ⟨v, hv, hval⟩ := rangeSum_total hlen
  let y : Local := ⟨⟨p.val, p == 0, .fresh, call.localSize p, v, call.sizes⟩,
    (call.localSize p).toInt64, (List.finRange n).map fun q => (call.localSize q).toInt64, .fresh⟩
  refine Publication.wp_local (fun _ => rfl) rfl <| Publication.wp_local (fun _ => rfl) rfl <|
    Publication.wp_local (fun _ => rfl) rfl <| Publication.wp_local (fun _ => rfl) rfl <|
    Publication.wp_local (fun _ => rfl) rfl <| Publication.wp_coll rfl rfl <|
    Publication.wp_local (y := y) (fun w => ?_) rfl (h y ⟨rfl, rfl, hval⟩)
  simp only [publication, perform, protocol, packet, Packet.lsize, hsizes, Local.fresh, hv]
  rfl

theorem segment_hollow {y : Local} (hy : call.Sized p y.xpm) :
    call.segment.size y = 0 ↔ (call.total == 0) = true := by
  have hsize : call.segment.size y = call.total := hy.globalSize
  simp only [hsize, beq_iff_eq]

/-- A context with its segment. -/
theorem Sized.allocated {path : Path} {y : Local} (hy : call.Sized p y.xpm)
    (hname : call.segName = .ok path) :
    call.Allocated p (call.segment.set (.mapped path (call.segment.size y) 0) y).xpm where
  qid := hy.qid
  localSizes := hy.localSizes
  globalSize := hy.globalSize
  segment := ⟨path, hname, congrArg (fun size => Handle.mapped path size 0) hy.globalSize⟩

/-- Process 0 makes the segment. -/
theorem wp_created (h : ∀ path y fs, call.segName = .ok path → fs.dir path = some 0 →
      call.Allocated 0 y.xpm → call.publication.Wp 0 t B (y, fs)) :
    call.publication.Wp 0 (createdScript ++ t) B (.fresh, .empty) := by
  simp only [createdScript, List.append_assoc]
  refine wp_sizes fun y hy => call.uniqPath.wp_root fun path x hname hresult => ?_
  have hx : call.Sized 0 (call.uniqPath.set x y).xpm := hy
  rw [← List.map_map]
  refine call.segment.wp_create hresult (segment_hollow hx) fun _ => ?_
  exact h path _ _ hname (by simp) (hx.allocated hname)

/-- If process 0 gets to the first barrier, the segment is there. -/
theorem created (h : ∀ b, .act b ∈ createdScript → call.publication.fails 0 b = false) :
    ∃ path, call.segName = .ok path ∧
      (call.publication.written createdScript).2.dir path = some 0 := by
  have hwp : call.publication.Wp 0 (createdScript ++ [])
      (fun y => ∃ path, call.segName = .ok path ∧ y.2.dir path = some 0) (.fresh, .empty) :=
    wp_created fun path y fs hname hdir _ => ⟨path, hname, hdir⟩
  rw [List.append_nil] at hwp
  exact Publication.written_of hwp h

/-- The others attach to it. -/
theorem wp_peer (hp : p ≠ 0) :
    call.publication.Wp p peerScript (fun y => call.Allocated p y.1.xpm) (.fresh, .empty) := by
  simp only [peerScript, List.append_assoc]
  refine wp_sizes fun y hy => call.uniqPath.wp_peer hp fun path x hname hresult => ?_
  have hx : call.Sized p (call.uniqPath.set x y).xpm := hy
  refine Publication.wp_coll rfl rfl ?_
  rw [← List.map_map]
  refine call.segment.wp_attach hp rfl hresult (segment_hollow hx) (i := 0) (fun hs => ?_)
    fun _ => Publication.wp_coll rfl rfl (hx.allocated hname)
  obtain ⟨path', hname', hdir⟩ := created hs
  obtain rfl : path = path' := by simpa [hname] using hname'
  exact hdir

theorem wp_root :
    call.publication.Wp 0 rootScript (fun y => call.Allocated 0 y.1.xpm) (.fresh, .empty) := by
  refine wp_created fun path y fs hname hdir hy => ?_
  obtain ⟨path', -, hseg⟩ := hy.segment
  refine Publication.wp_coll (y := y) rfl rfl <| Publication.wp_coll (y := y) rfl rfl ?_
  refine Publication.wp_writer (y := y)
    (w := if call.keeps path' then fs else fs.unlink path') ?_ rfl hy
  have hpath : y.xpm.qsmSegment.path = some path' := by rw [hseg]; rfl
  simp [publication, perform, Sm.exec, hpath, Except.map]

theorem wp_script (p : Fin n) :
    call.publication.Wp p (call.protocol.script p) (fun y => call.Allocated p y.1.xpm)
      (.fresh, .empty) := by
  by_cases hp : p = 0
  · subst hp
    rw [script_root]
    exact wp_root
  · rw [script_peer call hp]
    exact wp_peer hp

theorem sound (call : Call n) : call.publication.Sound :=
  fun p => wp_mono (wp_script p) fun _ _ => trivial

/-- Which steps fail is known beforehand. -/
theorem determined (call : Call n) : Determined call.protocol call.publication.fails :=
  (sound call).determined call.colls_script

end LibQuo.Xpm.Call
