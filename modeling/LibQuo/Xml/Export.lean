import LibQuo.Lib.CText

/-!
The text in which the first process of a node shares the topology: elements as
`topology-xml-nolibxml.c` exports them, piece by piece into a buffer that may be too small.
-/

namespace LibQuo.Xml
open CText

structure Attr where
  name : List Char
  value : List Char
  deriving DecidableEq

/-- An element, with its content or its children. -/
inductive Elem
  | node (name : List Char) (attrs : List Attr) (content : List Char) (children : List Elem)

/-! ## The exporter -/

/-- `strcspn` stops at these. -/
def escapable (c : Char) : Bool :=
  c = '\n' ∨ c = '\r' ∨ c = '\t' ∨ c = '"' ∨ c = '<' ∨ c = '>' ∨ c = '&'

def replacement (c : Char) : List Char :=
  if c = '\n' then ['&', '#', '1', '0', ';']
  else if c = '\r' then ['&', '#', '1', '3', ';']
  else if c = '\t' then ['&', '#', '9', ';']
  else if c = '"' then ['&', 'q', 'u', 'o', 't', ';']
  else if c = '<' then ['&', 'l', 't', ';']
  else if c = '>' then ['&', 'g', 't', ';']
  else if c = '&' then ['&', 'a', 'm', 'p', ';']
  else []

/-- The loop of `hwloc__nolibxml_export_escape_string`. -/
def escapeFrom : List Char → List Char
  | [] => []
  | c :: src =>
    replacement c ++ (src.takeWhile (!escapable ·) ++ escapeFrom (src.dropWhile (!escapable ·)))
termination_by src => src.length
decreasing_by
  rw [List.length_cons]
  exact Nat.lt_succ_of_le (List.dropWhile_suffix _).length_le

/-- `hwloc__nolibxml_export_escape_string`; there may be nothing to escape. -/
def escapeString (src : List Char) : Option (List Char) :=
  let sub := src.takeWhile (!escapable ·)
  if sub.length = src.length then none else some (sub ++ escapeFrom (src.drop sub.length))

/-- `hwloc__nolibxml_export_state_data_s`. -/
structure ExportState where
  out : Out
  indent : Nat
  nrChildren : Nat
  hasContent : Bool

/-- `hwloc__nolibxml_export_new_child`: the parent, and the new state. -/
def newChild (parent : ExportState) (name : List Char) : Result (ExportState × ExportState) :=
  if parent.hasContent then .error .assertFailed
  else do
    let out ← (if parent.nrChildren = 0 then emit ['>', '\n'] parent.out else pure parent.out)
    let parent := { parent with out := out, nrChildren := parent.nrChildren + 1 }
    let out ← emit (List.replicate parent.indent ' ' ++ '<' :: name) out
    return (parent, ⟨out, parent.indent + 2, 0, false⟩)

def newProp (state : ExportState) (attr : Attr) : Result ExportState := do
  let value := (escapeString attr.value).getD attr.value
  let out ← emit (' ' :: (attr.name ++ '=' :: '"' :: (value ++ ['"']))) state.out
  return { state with out := out }

def addContent (state : ExportState) (buffer : List Char) : Result ExportState :=
  if state.nrChildren ≠ 0 then .error .assertFailed
  else do
    let out ← (if state.hasContent then pure state.out else emit ['>'] state.out)
    let out ← emit buffer out
    return { state with out := out, hasContent := true }

/-- `hwloc__nolibxml_export_end_object`: the parent goes on where the state has ended. -/
def endObject (state parent : ExportState) (name : List Char) : Result ExportState :=
  if state.hasContent ∧ state.nrChildren ≠ 0 then .error .assertFailed
  else do
    let out ← (
      if state.hasContent then emit ('<' :: '/' :: (name ++ ['>', '\n'])) state.out
      else if state.nrChildren ≠ 0 then
        emit (List.replicate parent.indent ' ' ++ '<' :: '/' :: (name ++ ['>', '\n'])) state.out
      else emit ['/', '>', '\n'] state.out)
    return { parent with out := out }

mutual

/-- The calls for an element, in the order of `hwloc__xml_v2export_object`. -/
def exportElem : Elem → ExportState → Result ExportState
  | .node name attrs content children, parent => do
    let (parent, state) ← newChild parent name
    let state ← attrs.foldlM newProp state
    let state ← (if content = [] then pure state else addContent state content)
    let state ← exportElems children state
    endObject state parent name

def exportElems : List Elem → ExportState → Result ExportState
  | [], state => pure state
  | e :: es, state => do
    let state ← exportElem e state
    exportElems es state

end

def topologyName : List Char := ['t', 'o', 'p', 'o', 'l', 'o', 'g', 'y']

def versionName : List Char := ['v', 'e', 'r', 's', 'i', 'o', 'n']

/-- The root, with its version. -/
def topology (children : List Elem) : Elem :=
  .node topologyName [⟨versionName, ['2', '.', '0']⟩] [] children

def escapeChar (c : Char) : List Char := if escapable c then replacement c else [c]

def attrText (attr : Attr) : List Char :=
  ' ' :: (attr.name ++ '=' :: '"' :: (attr.value.flatMap escapeChar ++ ['"']))

def closingTag (name : List Char) : List Char := '<' :: '/' :: (name ++ ['>', '\n'])

mutual

def render (indent : Nat) : Elem → List Char
  | .node name attrs content children =>
    List.replicate indent ' ' ++ '<' :: (name ++ (attrs.flatMap attrText ++
      (if content ≠ [] then '>' :: (content ++ closingTag name)
        else if children ≠ [] then '>' :: '\n' :: (renderAll (indent + 2) children ++
          (List.replicate indent ' ' ++ closingTag name))
        else ['/', '>', '\n'])))

def renderAll (indent : Nat) : List Elem → List Char
  | [] => []
  | e :: es => render indent e ++ renderAll indent es

end

mutual

/-- No element has both content and children. -/
def Simple : Elem → Prop
  | .node _ _ content children => (content = [] ∨ children = []) ∧ AllSimple children

def AllSimple : List Elem → Prop
  | [] => True
  | e :: es => Simple e ∧ AllSimple es

end

/-- What comes before the first character to escape stays as it is. -/
theorem flatMap_escapeChar (src : List Char) :
    src.takeWhile (!escapable ·) ++ (src.dropWhile (!escapable ·)).flatMap escapeChar =
      src.flatMap escapeChar := by
  induction src with
  | nil => rfl
  | cons c src ih =>
    cases hc : escapable c with
    | true =>
      rw [List.takeWhile_cons_of_neg (by simp [hc]), List.dropWhile_cons_of_neg (by simp [hc]),
        List.nil_append]
    | false =>
      rw [List.takeWhile_cons_of_pos (by simp [hc]), List.dropWhile_cons_of_pos (by simp [hc]),
        List.cons_append, ih, List.flatMap_cons, escapeChar, if_neg (by simp [hc])]
      rfl

theorem head_dropWhile (src : List Char) :
    ∀ c ∈ (src.dropWhile (!escapable ·)).head?, escapable c = true := by
  intro c hc
  have hnot := List.head?_dropWhile_not (!escapable ·) src
  rw [hc] at hnot
  simpa using hnot

/-- The loop escapes character by character. -/
theorem escapeFrom_eq (src : List Char) (hsrc : ∀ c ∈ src.head?, escapable c = true) :
    escapeFrom src = src.flatMap escapeChar := by
  induction hlen : src.length using Nat.strongRecOn generalizing src with
  | ind n ih =>
    cases src with
    | nil => rw [escapeFrom, List.flatMap_nil]
    | cons c src =>
      have hc : escapable c = true := hsrc c rfl
      have hlt : (src.dropWhile (!escapable ·)).length < n := by
        rw [← hlen, List.length_cons]
        exact Nat.lt_succ_of_le (List.dropWhile_suffix _).length_le
      rw [escapeFrom, ih _ hlt _ (head_dropWhile src) rfl, flatMap_escapeChar, List.flatMap_cons,
        escapeChar, if_pos hc]

theorem escapeString_eq (src : List Char) :
    (escapeString src).getD src = src.flatMap escapeChar := by
  have hsplit : src.takeWhile (!escapable ·) ++ src.dropWhile (!escapable ·) = src :=
    List.takeWhile_append_dropWhile
  have hrest : escapeFrom (src.dropWhile (!escapable ·)) =
      (src.dropWhile (!escapable ·)).flatMap escapeChar :=
    escapeFrom_eq _ (head_dropWhile src)
  rw [← flatMap_escapeChar, escapeString]
  generalize src.takeWhile (!escapable ·) = sub at *
  generalize src.dropWhile (!escapable ·) = rest at *
  subst hsplit
  rw [List.drop_left, hrest]
  split
  · next hall =>
    rw [List.length_append] at hall
    have hnil : rest = [] := List.length_eq_zero_iff.mp (by omega)
    rw [hnil]
    rfl
  · rfl

section Printing

variable {s t u : ExportState} {f g : ExportState → Result ExportState}
  {done text text' piece name content : List Char}

/-- From the state `s` to `t` a part of the exporter adds `text`, whatever room there is. -/
def Exports (f : ExportState → Result ExportState) (s t : ExportState) (done text : List Char) :
    Prop :=
  ∀ buf buflen o, buflen ≤ buf.length → (done ++ text).length < 2 ^ 31 →
    Printed buf buflen done o → ∃ o', f { s with out := o } = .ok { t with out := o' } ∧
      Printed buf buflen (done ++ text) o'

theorem Exports.of_prints {p : Out → Result Out} (hp : Prints p done text)
    (h : ∀ o, f { s with out := o } = (p o).map fun o => { t with out := o }) :
    Exports f s t done text := by
  intro buf buflen o hroom hlen ho
  obtain ⟨o', hp, ho'⟩ := hp buf buflen o hroom hlen ho
  exact ⟨o', by rw [h, hp]; rfl, ho'⟩

theorem Exports.skip (done : List Char) : Exports pure s s done [] := by
  intro buf buflen o _ _ ho
  rw [List.append_nil]
  exact ⟨o, rfl, ho⟩

theorem Exports.seq (hf : Exports f s t done text) (hg : Exports g t u (done ++ text) text') :
    Exports (fun s => f s >>= g) s u done (text ++ text') := by
  intro buf buflen o hroom hlen ho
  rw [← List.append_assoc] at hlen ⊢
  have hlen' : (done ++ text).length < 2 ^ 31 := by
    rw [List.length_append] at hlen
    exact Nat.lt_of_le_of_lt (Nat.le_add_right _ _) hlen
  obtain ⟨o', hf', ho'⟩ := hf buf buflen o hroom hlen' ho
  obtain ⟨o'', hg', ho''⟩ := hg buf buflen o' hroom hlen ho'
  refine ⟨o'', ?_, ho''⟩
  change f { s with out := o } >>= g = _
  rw [hf']
  exact hg'

theorem newProp_exports (attr : Attr) (done : List Char) :
    Exports (newProp · attr) s s done (attrText attr) := by
  refine Exports.of_prints (Prints.emit done _) fun o => ?_
  rw [newProp, escapeString_eq]
  rfl

theorem newProps_exports (attrs : List Attr) (done : List Char) :
    Exports (attrs.foldlM newProp ·) s s done (attrs.flatMap attrText) := by
  induction attrs generalizing done with
  | nil => exact Exports.skip done
  | cons attr attrs ih => exact (newProp_exports attr done).seq (ih _)

/-- What a new child is opened with: it ends the tag of its parent if it is the first. -/
def opening (k : Nat) : List Char := if k = 0 then ['>', '\n'] else []

theorem newChild_exports (o : Out) (indent k : Nat) (name done : List Char) :
    Exports (fun parent => (newChild parent name).map (·.2)) ⟨o, indent, k, false⟩
      ⟨o, indent + 2, 0, false⟩ done
      (opening k ++ (List.replicate indent ' ' ++ '<' :: name)) := by
  have hopen : Prints (fun o => if k = 0 then emit ['>', '\n'] o else pure o) done (opening k) := by
    unfold opening
    split
    · exact Prints.emit done _
    · exact Prints.skip done
  refine Exports.of_prints (hopen.seq (Prints.emit _ _)) fun o => ?_
  rw [newChild, if_neg Bool.false_ne_true]
  dsimp only
  cases (if k = 0 then emit ['>', '\n'] o else pure o) with
  | error e => rfl
  | ok o =>
    show Except.map _ (emit (List.replicate indent ' ' ++ '<' :: name) o >>= _) = _
    rw [show (Except.ok o >>= emit (List.replicate indent ' ' ++ '<' :: name)) = emit _ o from rfl]
    cases emit (List.replicate indent ' ' ++ '<' :: name) o with
    | error e => rfl
    | ok o => rfl

theorem exportElem_eq (name : List Char) (attrs : List Attr) (content : List Char)
    (children : List Elem) (p : ExportState) :
    exportElem (.node name attrs content children) p =
      (newChild p name).map (·.2) >>= fun state => attrs.foldlM newProp state >>= fun state =>
        (if content = [] then pure state else addContent state content) >>= fun state =>
          exportElems children state >>= fun state =>
            endObject state { p with nrChildren := p.nrChildren + 1 } name := by
  obtain ⟨out, indent, k, hasContent⟩ := p
  rw [exportElem]
  cases hasContent with
  | true => rfl
  | false =>
    rw [newChild, if_neg Bool.false_ne_true]
    dsimp only
    cases (if k = 0 then emit ['>', '\n'] out else pure out) with
    | error e => rfl
    | ok o =>
      change (emit (List.replicate indent ' ' ++ '<' :: name) o >>= _) >>= _ =
        Except.map _ (emit (List.replicate indent ' ' ++ '<' :: name) o >>= _) >>= _
      cases emit (List.replicate indent ' ' ++ '<' :: name) o with
      | error e => rfl
      | ok o => rfl

theorem addContent_exports (o : Out) (indent : Nat) (content done : List Char) :
    Exports (addContent · content) ⟨o, indent, 0, false⟩ ⟨o, indent, 0, true⟩ done
      ('>' :: content) := by
  refine Exports.of_prints ((Prints.emit done ['>']).seq (Prints.emit _ content)) fun o => ?_
  rw [addContent, if_neg (by simp)]
  dsimp only
  rw [if_neg Bool.false_ne_true]
  cases emit ['>'] o with
  | error e => rfl
  | ok o =>
    change (emit content o >>= _) = Except.map _ (emit content o)
    cases emit content o with
    | error e => rfl
    | ok o => rfl

def ending (indent k : Nat) (hasContent : Bool) (name : List Char) : List Char :=
  if hasContent then closingTag name
  else if k ≠ 0 then List.replicate indent ' ' ++ closingTag name
  else ['/', '>', '\n']

theorem endObject_exports (o : Out) (indent inner k k' : Nat) (hasContent : Bool)
    (name done : List Char) (h : hasContent = false ∨ k = 0) :
    Exports (endObject · ⟨o, indent, k', false⟩ name) ⟨o, inner, k, hasContent⟩
      ⟨o, indent, k', false⟩ done (ending indent k hasContent name) := by
  refine Exports.of_prints (Prints.emit done _) fun o => ?_
  have hassert : ¬(hasContent = true ∧ k ≠ 0) := fun hand => by
    rcases h with h | h
    · rw [h] at hand
      exact Bool.false_ne_true hand.1
    · exact hand.2 h
  rw [endObject, if_neg hassert]
  have hemit : (if hasContent then emit ('<' :: '/' :: (name ++ ['>', '\n'])) o
      else if k ≠ 0 then
        emit (List.replicate indent ' ' ++ '<' :: '/' :: (name ++ ['>', '\n'])) o
      else emit ['/', '>', '\n'] o) = emit (ending indent k hasContent name) o := by
    unfold ending closingTag
    split
    · rfl
    · split
      · rfl
      · rfl
  dsimp only
  rw [hemit]
  cases emit (ending indent k hasContent name) o with
  | error e => rfl
  | ok o => rfl

/-- What follows the attributes of an element. -/
def body (indent : Nat) (name content : List Char) (children : List Elem) : List Char :=
  if content ≠ [] then '>' :: (content ++ closingTag name)
  else if children ≠ [] then '>' :: '\n' :: (renderAll (indent + 2) children ++
    (List.replicate indent ' ' ++ closingTag name))
  else ['/', '>', '\n']

theorem body_exports {children : List Elem} (o : Out) (indent k : Nat)
    (name content done : List Char) (hor : content = [] ∨ children = [])
    (hchildren : ∀ done, Exports (exportElems children)
      ⟨o, indent + 2, 0, false⟩ ⟨o, indent + 2, children.length, false⟩ done
      ((if children = [] then [] else opening 0) ++ renderAll (indent + 2) children)) :
    Exports (fun state => (if content = [] then pure state else addContent state content) >>=
        fun state => exportElems children state >>= fun state =>
          endObject state ⟨o, indent, k, false⟩ name)
      ⟨o, indent + 2, 0, false⟩ ⟨o, indent, k, false⟩ done (body indent name content children) := by
  unfold body
  by_cases hcontent : content = []
  · rw [if_neg (not_not.mpr hcontent)]
    subst hcontent
    have hall := (hchildren done).seq
      (endObject_exports o indent (indent + 2) children.length k false name _ (.inl rfl))
    by_cases hnil : children = []
    · subst hnil
      rw [if_neg (not_not.mpr rfl)]
      exact hall
    · rw [if_pos hnil]
      rw [if_neg hnil, ending, if_neg Bool.false_ne_true, if_pos (by simpa using hnil)] at hall
      exact hall
  · rw [if_pos hcontent]
    obtain rfl := hor.resolve_left hcontent
    have hall := (addContent_exports o (indent + 2) content done).seq
      (endObject_exports o indent (indent + 2) 0 k true name _ (.inr rfl))
    simp only [if_neg hcontent]
    exact hall

end Printing

mutual

/-- Whatever room there is, an element is exported as its text. -/
theorem exportElem_exports : ∀ (e : Elem), Simple e → ∀ (o : Out) (indent k : Nat)
    (done : List Char), Exports (exportElem e) ⟨o, indent, k, false⟩ ⟨o, indent, k + 1, false⟩ done
      (opening k ++ render indent e)
  | .node name attrs content children, hsimple, o, indent, k, done => by
    have hbody (done : List Char) := body_exports o indent (k + 1) name content done hsimple.1
      (exportElems_exports children hsimple.2 o (indent + 2) 0)
    have hall := (newChild_exports o indent k name done).seq
      ((newProps_exports attrs _).seq (hbody _))
    intro buf buflen o' hroom hlen ho
    have htext : opening k ++ render indent (.node name attrs content children) =
        opening k ++ (List.replicate indent ' ' ++ '<' :: name) ++
          (attrs.flatMap attrText ++ body indent name content children) := by
      rw [render, body]
      simp only [List.append_assoc, List.cons_append]
    rw [htext] at hlen ⊢
    obtain ⟨o'', heq, ho''⟩ := hall buf buflen o' hroom hlen ho
    exact ⟨o'', by rw [exportElem_eq]; exact heq, ho''⟩

theorem exportElems_exports : ∀ (es : List Elem), AllSimple es → ∀ (o : Out) (indent k : Nat)
    (done : List Char), Exports (exportElems es) ⟨o, indent, k, false⟩
      ⟨o, indent, es.length + k, false⟩ done
      ((if es = [] then [] else opening k) ++ renderAll indent es)
  | [], _, o, indent, k, done => by
    rw [List.length_nil, Nat.zero_add]
    exact Exports.skip done
  | e :: es, hsimple, o, indent, k, done => by
    have he := exportElem_exports e hsimple.1 o indent k done
    have hes := exportElems_exports es hsimple.2 o indent (k + 1)
      (done ++ (opening k ++ render indent e))
    have hopen : (if es = [] then [] else opening (k + 1)) = [] := by
      split
      · rfl
      · exact if_neg (Nat.succ_ne_zero k)
    have hlen : (e :: es).length + k = es.length + (k + 1) := Nat.succ_add_eq_add_succ es.length k
    rw [hopen, List.nil_append] at hes
    rw [if_neg (List.cons_ne_nil e es), renderAll, ← List.append_assoc, hlen]
    exact he.seq hes

end

/-! ## The buffer -/

variable {children : List Elem} {buf : List Char} {buflen : Nat}

end LibQuo.Xml
