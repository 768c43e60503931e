import LibQuo.Create.Protocol

/-!
The creation replayed: process 0 makes either segment in front of the first of two
barriers, and the others attach to it between the two.
-/

namespace LibQuo.Create

/-- The text as it is in memory. -/
def Xml.text (xml : Xml) : List Int := xml.bytes.map (fun b => (b.toNat : Int)) ++ [0]

theorem Xml.length_text (xml : Xml) : xml.text.length = xml.len := by simp [text, len]

namespace Call
open CMem Sm Spmd

variable {n : Nat} [NeZero n] (call : Call n)

omit [NeZero n] in
/-- The steps that fail whatever else succeeds. -/
def dead : Act → Bool
  | .xchg m a => a == .checkPlen && !(call.segName m).isOk
  | _ => false

/-- The others open a segment once process 0 has made it. -/
def behind : Act → Option (List (Instr Act Coll))
  | .sm .bseg .openRdwr => some barrierScript
  | .sm .htopo .openRdwr => some topologyScript
  | _ => none

def message (p : Fin n) (c : Coll) : Msg :=
  if p = 0 then
    match c with
    | .xchg m c => UniqPath.message (call.segName m) c
    | .topoXmlLen => .int call.xml.len
    | .mpiBarrier | .smBarrier => .nothing
  else .nothing

omit [NeZero n] in
/-- What process 0 does behind the first segment. -/
theorem rootScript_eq : ∃ post, rootScript =
    barrierScript ++ .coll .mpiBarrier :: .coll .mpiBarrier :: post := by
  let published := UniqPath.rootScript.map (lift (Act.xchg .htopo) (Coll.xchg .htopo)) ++
    [.act .topologyInit, .act .topoLoad, .act .exportXmlbuffer, .coll .topoXmlLen] ++
    createScript.map (.act ∘ .sm .htopo) ++ [.act .copyXml]
  refine ⟨.act (.sm .bseg .unlink) :: published ++ [.coll .smBarrier, .coll .smBarrier,
    .act (.sm .htopo .unlink), .act .initCachedAttrs], ?_⟩
  simp [rootScript, topologyScript, published]

/-- Where the others execute what. -/
def peerPlace : Act → Nat → Prop
  | .sm .bseg a, k => a ∈ attachScript ∧ k = 3
  | .sm .htopo a, k => a ∈ attachScript ∧ k = 8
  | .copyXml, _ => False
  | _, _ => True

theorem placed_peer {p : Fin n} (hp : p ≠ 0) : Placed peerPlace 0 (call.protocol.script p) := by
  simp [script_peer call hp, peerScript, UniqPath.peerScript, attachScript, Placed, lift, peerPlace]

theorem peerPlace_of_mem {p : Fin n} (hp : p ≠ 0) {a : Act} (ha : .act a ∈ call.protocol.script p) :
    ∃ k, peerPlace a k := by
  obtain ⟨d, rest, hd⟩ := List.append_of_mem ha
  exact ⟨_, (call.placed_peer hp).at hd⟩

omit [NeZero n] in
theorem mem_attach_of_place {m : Module} {a : Sm.Act} {k : Nat} (h : peerPlace (.sm m a) k) :
    a ∈ attachScript := by
  cases m with
  | bseg => exact h.1
  | htopo => exact h.1

theorem perform_error {p : Fin n} {a : Act} {loc : Local} {fs fs' : Files} {e : Halt Int}
    (h : call.perform p a loc fs = (.error e, fs')) : fs' = fs := by
  cases a with
  | sm m a =>
    obtain ⟨herr, hfs⟩ := Prod.mk.inj h
    cases hx : Sm.exec call.keeps (loc.path m).result (loc.segSize m) a (loc.segment m) fs with
    | mk r fs₁ =>
      rw [hx] at herr hfs
      cases r with
      | error e => exact hfs ▸ exec_error hx
      | ok h => simp [Except.map] at herr
  | topoLoad =>
    simp only [perform] at h
    split at h
    · exact (Prod.mk.inj h).2.symm
    · simp at h
  | copyXml =>
    simp only [perform] at h
    split at h
    · simp at h
    · exact (Prod.mk.inj h).2.symm
  | _ => exact (Prod.mk.inj h).2.symm

theorem perform_quiet {p : Fin n} {a : Act} {k : Nat} (ha : peerPlace a k) (loc : Local)
    (fs : Files) : (call.perform p a loc fs).2 = fs := by
  cases a with
  | sm m a => exact exec_attach (mem_attach_of_place ha)
  | copyXml => exact ha.elim
  | topoLoad =>
    simp only [perform]
    split <;> rfl
  | _ => rfl

theorem perform_blind {p : Fin n} {a : Act} {k : Nat} (ha : peerPlace a k) (hb : behind a = none)
    (loc : Local) (fs fs' : Files) :
    (call.perform p a loc fs).1 = (call.perform p a loc fs').1 := by
  cases a with
  | sm m a =>
    have hne : a ≠ .openRdwr := by
      rintro rfl
      cases m <;> simp [behind] at hb
    simp only [perform]
    rw [exec_blind (mem_attach_of_place ha) hne]
  | copyXml => exact ha.elim
  | topoLoad =>
    simp only [perform]
    split <;> rfl
  | _ => rfl

def publication : Publication call.protocol where
  writer := 0
  fault p a := (call.fault p a).map fun e => a.bail (.code e.code)
  perform := call.perform
  dead _ := call.dead
  behind := behind
  msg := call.message
  exec_eq p a loc fs := by
    simp only [protocol]
    cases call.fault p a <;> rfl
  error p a loc fs e fs' h := call.perform_error h
  idle p fs fs' h := h.elim
  quiet p a loc fs hp ha := by
    obtain ⟨k, hk⟩ := call.peerPlace_of_mem hp ha
    exact call.perform_quiet hk loc fs
  blind p a loc fs fs' hp ha hb := by
    obtain ⟨k, hk⟩ := call.peerPlace_of_mem hp ha
    exact call.perform_blind hk hb loc fs fs'
  window p a xs d rest hp hd hb := by
    have hk := (call.placed_peer hp).at hd
    rw [Nat.zero_add] at hk
    cases a with
    | sm m a =>
      cases a with
      | openRdwr =>
        cases m with
        | bseg =>
          obtain rfl : barrierScript = xs := by simpa [behind] using hb
          obtain ⟨post, hpost⟩ := rootScript_eq
          refine ⟨.mpiBarrier, .mpiBarrier, post, ?_, rfl, rfl, ?_⟩
          · rw [script_root, hpost]
          · rw [hk.2]
            simp [barrierScript, UniqPath.rootScript, createScript, colls, lift]
        | htopo =>
          obtain rfl : topologyScript = xs := by simpa [behind] using hb
          refine ⟨.smBarrier, .smBarrier, [.act (.sm .htopo .unlink), .act .initCachedAttrs],
            ?_, rfl, rfl, ?_⟩
          · rw [script_root, rootScript]
          · rw [hk.2]
            simp [topologyScript, barrierScript, UniqPath.rootScript, createScript, colls, lift]
      | _ => simp [behind] at hb
    | _ => simp [behind] at hb
  recv p c f loc hval hsome := by
    have hq (q : Fin n) : call.protocol.root c = none ∨ call.protocol.root c = some q →
        f q = some (call.message q c) := by
      intro hroot
      obtain ⟨v, hv⟩ := Option.isSome_iff_exists.mp (hsome q hroot)
      rw [hv, hval q v hv]
    cases c with
    | mpiBarrier | smBarrier => rfl
    | xchg m c => simp only [protocol, hq 0 (.inr rfl)]
    | topoXmlLen => simp only [protocol, hq 0 (.inr rfl)]

/-- Where nothing fails, no step does. -/
theorem fails_of_clean {call : Call n} (hname : ∀ m, (call.segName m).isOk = true)
    (hfault : ∀ p a, call.fault p a = none) (p : Fin n) (a : Act) :
    call.publication.fails p a = false := by
  simp only [Publication.fails, publication, hfault, Option.map_none, Option.isSome_none,
    Bool.false_or]
  cases a with
  | xchg m a => simp [dead, hname]
  | _ => rfl

/-! ## The scripts replayed -/

def uniqPath (m : Module) :
    UniqPath.Within call.publication (call.segName m) (Act.xchg m) (Coll.xchg m) where
  get loc := loc.path m
  set x loc := loc.setPath m x
  err := (Act.xchg m .checkPlen).bail
  get_set x loc := by cases m <;> rfl
  set_set x y loc := by cases m <;> rfl
  root a loc w := by
    simp only [publication, perform, if_pos]
    cases m <;> rfl
  peer p a loc w hp := by
    have hp : p ≠ 0 := hp
    simp only [publication, perform, if_neg hp]
    cases m <;> rfl
  dead _ _ := rfl
  send_root c loc h := by simp [publication, protocol, message, h]
  send_peer p c loc hp := by
    have hp : p ≠ 0 := hp
    simp [publication, protocol, message, hp]
  recv_root c v loc := by simp [publication, protocol]
  recv_peer p c loc hp := by
    have hp : p ≠ 0 := hp
    simp [publication, protocol, message, hp, recvUniq]

def segment (m : Module) : Sm.Within call.publication (Act.sm m) false where
  keeps := call.keeps
  get loc := loc.segment m
  set h loc := loc.setSegment m h
  path loc := (loc.path m).result
  size loc := loc.segSize m
  get_set h loc := by cases m <;> rfl
  set_set h h' loc := by cases m <;> rfl
  path_set h loc := by cases m <;> rfl
  size_set h loc := by cases m <;> rfl
  perform _ _ _ _ := rfl
  dead p a := by simp [publication, dead]

variable {call} {p : Fin n} {t : List (Instr Act Coll)} {B : Local × Files → Prop} {fs : Files}

/-- `create` links the path. -/
theorem dir_create (fs : Files) (path : Path) :
    (fs.create path).2.dir path = some (fs.create path).1 := by
  cases h : fs.dir path <;> simp [Files.create, h]

theorem recv_root (c : Coll) (f : Fin n → Option Msg) (loc : Local) :
    call.protocol.recv 0 c f loc = loc := by simp [protocol]

theorem send_peer (hp : p ≠ 0) (c : Coll) (loc : Local) :
    call.protocol.send p c loc = call.publication.msg p c := by
  simp [protocol, publication, message, hp]

theorem recv_mpiBarrier (f : Fin n → Option Msg) (loc : Local) :
    call.protocol.recv p .mpiBarrier f loc = loc := by simp [protocol]

theorem recv_smBarrier (f : Fin n → Option Msg) (loc : Local) :
    call.protocol.recv p .smBarrier f loc = loc := by simp [protocol]

theorem recv_topoXmlLen (hp : p ≠ 0) (loc : Local) :
    call.protocol.recv p .topoXmlLen (fun q => some (call.message q .topoXmlLen)) loc =
      { loc with topoXmlLen := call.xml.len } := by
  simp [protocol, message, hp, recvLen]

theorem barrierSegment_size (loc : Local) : (call.segment .bseg).size loc = 0 ↔ false = true := by
  simp [segment, Local.segSize, barrierSegmentSize]

theorem topologySegment_size {loc : Local} (h : loc.topoXmlLen = call.xml.len) :
    (call.segment .htopo).size loc = 0 ↔ false = true := by
  simp [segment, Local.segSize, h, Xml.len]

/-- Process 0 sets up the barrier. -/
theorem wp_barrier (h : ∀ path y fs, call.segName .bseg = .ok path →
      y.barrierSm = .mapped path barrierSegmentSize 0 → fs.dir path = some 0 →
      call.publication.Wp 0 t B (y, fs)) :
    call.publication.Wp 0 (barrierScript ++ t) B (.fresh, .empty) := by
  simp only [barrierScript, List.append_assoc]
  refine (call.uniqPath .bseg).wp_root fun path x hname hresult => ?_
  rw [← List.map_map]
  refine (call.segment .bseg).wp_create hresult (barrierSegment_size _) fun _ => ?_
  refine Publication.wp_local (fun _ => rfl) rfl ?_
  exact h path _ _ hname rfl (by simp)

/-- If process 0 gets to the first barrier, the first segment is there. -/
theorem barrier_made (h : ∀ b, .act b ∈ barrierScript → call.publication.fails 0 b = false) :
    ∃ path, call.segName .bseg = .ok path ∧
      (call.publication.written barrierScript).2.dir path = some 0 := by
  have hwp : call.publication.Wp 0 (barrierScript ++ [])
      (fun y => ∃ path, call.segName .bseg = .ok path ∧ y.2.dir path = some 0) (.fresh, .empty) :=
    wp_barrier fun path y fs hname _ hdir => ⟨path, hname, hdir⟩
  rw [List.append_nil] at hwp
  exact Publication.written_of hwp h

/-- Process 0 shares its topology: its text is in the segment. -/
theorem wp_shared (h : ∀ path y fs i, call.segName .htopo = .ok path →
      y.htopoSm = .mapped path call.xml.len i → fs.dir path = some i →
      fs.read i 0 call.xml.len = call.xml.text → call.publication.Wp 0 t B (y, fs)) :
    call.publication.Wp 0 (topologyScript ++ t) B (.fresh, .empty) := by
  simp only [topologyScript, List.append_assoc]
  refine wp_barrier fun path₁ y fs _ hsm _ => ?_
  have hpath₁ : y.barrierSm.path = some path₁ := by rw [hsm]; rfl
  refine Publication.wp_coll rfl (recv_root _ _ y) <| Publication.wp_coll rfl (recv_root _ _ y) ?_
  refine Publication.wp_writer (y := y)
    (w := if call.keeps path₁ then fs else fs.unlink path₁) ?_ rfl ?_
  · simp [publication, perform, Sm.exec, Local.segment, Local.setSegment, hpath₁, Except.map]
  refine (call.uniqPath .htopo).wp_root fun path x hname hresult => ?_
  refine Publication.wp_local (fun _ => rfl) rfl <| Publication.wp_local (fun _ => rfl) rfl <|
    Publication.wp_local (fun _ => rfl) rfl <| Publication.wp_coll ?_ (recv_root _ _ _) ?_
  · simp [protocol, publication, message]
  rw [← List.map_map]
  refine (call.segment .htopo).wp_create hresult (topologySegment_size rfl) fun _ => ?_
  refine Publication.wp_writer rfl rfl ?_
  refine h path _ _ _ hname rfl (dir_create _ _) ?_
  rw [← call.xml.length_text]
  refine Files.read_eq _ _ _ _ fun j hj => ?_
  exact Files.cell_write_self _ _ 0 call.xml.text hj

/-- Process 0 shares its topology. -/
theorem wp_topology (h : ∀ path y fs i, call.segName .htopo = .ok path →
      y.htopoSm = .mapped path call.xml.len i → fs.dir path = some i →
      call.publication.Wp 0 t B (y, fs)) :
    call.publication.Wp 0 (topologyScript ++ t) B (.fresh, .empty) :=
  wp_shared fun path y fs i hname hsm hdir _ => h path y fs i hname hsm hdir

/-- If process 0 gets to the last but one barrier, the second segment is there. -/
theorem topology_made (h : ∀ b, .act b ∈ topologyScript → call.publication.fails 0 b = false) :
    ∃ path i, call.segName .htopo = .ok path ∧
      (call.publication.written topologyScript).2.dir path = some i := by
  have hwp : call.publication.Wp 0 (topologyScript ++ [])
      (fun y => ∃ path i, call.segName .htopo = .ok path ∧ y.2.dir path = some i)
      (.fresh, .empty) :=
    wp_topology fun path y fs i hname _ hdir => ⟨path, i, hname, hdir⟩
  rw [List.append_nil] at hwp
  exact Publication.written_of hwp h

theorem wp_root : call.publication.Wp 0 rootScript (fun _ => True) (.fresh, .empty) := by
  refine wp_topology fun path y fs i _ hsm _ => ?_
  have hpath : y.htopoSm.path = some path := by rw [hsm]; rfl
  refine Publication.wp_coll rfl (recv_root _ _ y) <| Publication.wp_coll rfl (recv_root _ _ y) ?_
  refine Publication.wp_writer (y := y)
    (w := if call.keeps path then fs else fs.unlink path) ?_ rfl ?_
  · simp [publication, perform, Sm.exec, Local.segment, Local.setSegment, hpath, Except.map]
  · exact Publication.wp_local (fun _ => rfl) rfl trivial

/-- The script of the others, up to having attached to the second segment. -/
def attachedScript : List (Instr Act Coll) :=
  UniqPath.peerScript.map (lift (.xchg .bseg) (.xchg .bseg)) ++ [.coll .mpiBarrier] ++
  attachScript.map (.act ∘ .sm .bseg) ++ [.coll .mpiBarrier] ++
  UniqPath.peerScript.map (lift (.xchg .htopo) (.xchg .htopo)) ++
  [.act .topologyInit, .coll .topoXmlLen, .coll .smBarrier] ++
  attachScript.map (.act ∘ .sm .htopo) ++ [.coll .smBarrier]

omit [NeZero n] in
theorem peerScript_eq : peerScript = attachedScript ++
    [.act .setXmlbuffer, .act .topoLoad, .act .initCachedAttrs] := by
  simp [peerScript, attachedScript]

/-- The others attach to both segments. -/
theorem wp_attached (hp : p ≠ 0) (h : ∀ path y i, call.segName .htopo = .ok path →
      y.htopoSm = .mapped path call.xml.len i → y.topoXmlLen = (call.xml.len : Int) →
      y.topo.isSome →
      ((∀ b, .act b ∈ topologyScript → call.publication.fails 0 b = false) →
        (call.publication.written topologyScript).2.dir path = some i) →
      call.publication.Wp p t B (y, .empty)) :
    call.publication.Wp p (attachedScript ++ t) B (.fresh, .empty) := by
  simp only [attachedScript, List.append_assoc]
  refine (call.uniqPath .bseg).wp_peer hp fun path₁ x₁ hname₁ hresult₁ => ?_
  refine Publication.wp_coll (send_peer hp _ _) (recv_mpiBarrier _ _) ?_
  rw [← List.map_map]
  refine (call.segment .bseg).wp_attach hp rfl hresult₁ (barrierSegment_size _) (i := 0)
    (fun hs => ?_) fun _ => ?_
  · obtain ⟨path', hname', hdir⟩ := barrier_made hs
    obtain rfl : path₁ = path' := by simpa [hname₁] using hname'
    exact hdir
  refine Publication.wp_coll (send_peer hp _ _) (recv_mpiBarrier _ _) ?_
  refine (call.uniqPath .htopo).wp_peer hp fun path x hname hresult => ?_
  refine Publication.wp_local (fun _ => rfl) rfl <|
    Publication.wp_coll (send_peer hp _ _) (recv_topoXmlLen hp _) <|
    Publication.wp_coll (send_peer hp _ _) (recv_smBarrier _ _) ?_
  obtain ⟨i, hlink⟩ : ∃ i, (∀ b, .act b ∈ topologyScript →
      call.publication.fails 0 b = false) →
      (call.publication.written topologyScript).2.dir path = some i := by
    by_cases hs : ∀ b, .act b ∈ topologyScript → call.publication.fails 0 b = false
    · obtain ⟨path', i, hname', hdir⟩ := topology_made hs
      obtain rfl : path = path' := by simpa [hname] using hname'
      exact ⟨i, fun _ => hdir⟩
    · exact ⟨0, fun h => absurd h hs⟩
  rw [← List.map_map]
  refine (call.segment .htopo).wp_attach hp rfl hresult (topologySegment_size rfl) hlink
    fun _ => ?_
  refine Publication.wp_coll (send_peer hp _ _) (recv_smBarrier _ _) ?_
  exact h path _ i hname rfl rfl rfl hlink

theorem wp_peer (hp : p ≠ 0) :
    call.publication.Wp p peerScript (fun _ => True) (.fresh, .empty) := by
  rw [peerScript_eq]
  refine wp_attached hp fun path y i _ _ _ htopo _ => ?_
  obtain ⟨topo, htopo⟩ := Option.isSome_iff_exists.mp htopo
  refine Publication.wp_local (fun _ => rfl) rfl <|
    Publication.wp_local (y := { y with xmlbuffer := y.htopoSm.segBasep, topo := some .loaded })
      (fun w => ?_) rfl <| Publication.wp_local (fun _ => rfl) rfl trivial
  simp [publication, perform, htopo]

theorem sound (call : Call n) : call.publication.Sound := by
  intro p
  by_cases hp : p = 0
  · subst hp
    rw [script_root]
    exact wp_root
  · rw [script_peer call hp]
    exact wp_peer hp

/-- Which steps fail is known beforehand. -/
theorem determined (call : Call n) : Determined call.protocol call.publication.fails :=
  (sound call).determined call.colls_script

end Call

end LibQuo.Create
