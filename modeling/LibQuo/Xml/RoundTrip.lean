import LibQuo.Xml.Import
import Mathlib.Data.List.DropRight

/-!
What the first process of a node exports the others import: the same elements, with the same
attributes and contents.
-/

namespace LibQuo.Xml
open CText

section Elements

variable (contents : List Char → List Attr → Option Nat)

/-- Attributes that can be exported: strings, with names that the parser knows. -/
def LegalAttr (attr : Attr) : Prop :=
  (∀ c ∈ attr.name, isAttrChar c = true) ∧ ∀ c ∈ attr.value, c ≠ '\x00'

mutual

/-- Elements as `topology-xml.c` exports them. The content is not escaped. -/
def Legal : Elem → Prop
  | .node name attrs content children =>
    (name ≠ [] ∧ ∀ c ∈ name, isTagChar c = true) ∧ (∀ attr ∈ attrs, LegalAttr attr) ∧
      (∀ c ∈ content, c ≠ '<' ∧ c ≠ '\x00') ∧
      ((contents name attrs).elim (content = []) fun n => children = [] ∧ content.length = n) ∧
      AllLegal children

def AllLegal : List Elem → Prop
  | [] => True
  | e :: es => Legal e ∧ AllLegal es

end

mutual

def cost : Elem → Nat
  | .node _ attrs _ children => attrs.length + costs children + 1

def costs : List Elem → Nat
  | [] => 1
  | e :: es => cost e + costs es + 1

end

end Elements

/-! ## Attributes -/

section Attributes

variable {s rest : List Char} {state : ImportState}

/-- A character is read back as it was, and no quote ends the value before it is. -/
theorem unescapeChar_escapeChar (c : Char) (s : List Char) :
    unescapeChar (escapeChar c ++ s) = some (c, s) ∧ (escapeChar c ++ s).head? ≠ some '"' := by
  unfold escapeChar
  split
  · next hc =>
    simp only [escapable, decide_eq_true_eq] at hc
    rcases hc with rfl | rfl | rfl | rfl | rfl | rfl | rfl
    all_goals exact ⟨rfl, by simp [replacement]⟩
  · next hc =>
    simp only [escapable, decide_eq_true_eq, not_or] at hc
    refine ⟨if_neg hc.2.2.2.2.2.2, fun hquote => hc.2.2.2.1 ?_⟩
    exact Option.some.inj hquote

theorem unescape_value (value rest : List Char) :
    unescape (value.flatMap escapeChar ++ '"' :: rest) = pure (some (value, rest)) := by
  induction value with
  | nil => rw [unescape]; rfl
  | cons c value ih =>
    obtain ⟨hread, hquote⟩ := unescapeChar_escapeChar c (value.flatMap escapeChar ++ '"' :: rest)
    have hrest : value.flatMap escapeChar ++ '"' :: rest ≠ [] :=
      List.append_ne_nil_of_right_ne_nil _ (List.cons_ne_nil _ _)
    rw [List.flatMap_cons, List.append_assoc, unescape, if_neg hquote,
      if_neg (List.append_ne_nil_of_right_ne_nil _ hrest)]
    split
    · next hnone => exact absurd (hread.symm.trans hnone) (by simp)
    · next c' s' hsome =>
      obtain ⟨rfl, rfl⟩ := Prod.mk.inj (Option.some.inj (hread.symm.trans hsome))
      rw [if_neg hrest, ih]
      rfl

/-- Blanks before a text that begins with none. -/
theorem ignoreSpaces_append {blanks : List Char} (hblanks : ∀ c ∈ blanks, isBlank c = true)
    (hs : ∀ c ∈ s.head?, isBlank c = false) : ignoreSpaces (blanks ++ s) = s :=
  (span_append hblanks hs).2

theorem ignoreSpaces_twice (s : List Char) : ignoreSpaces (ignoreSpaces s) = ignoreSpaces s :=
  List.dropWhile_idempotent isBlank s

theorem isBlank_of_isTagChar {c : Char} (hc : isTagChar c = true) : isBlank c = false := by
  by_contra hblank
  simp only [isBlank, Bool.not_eq_false, decide_eq_true_eq] at hblank
  rcases hblank with rfl | rfl | rfl
  all_goals exact absurd hc (by decide)

theorem isTagChar_of_isAttrChar {c : Char} (hc : isAttrChar c = true) : isTagChar c = true :=
  decide_eq_true (.inl hc)

/-- The text of an attribute, without the blank before it. -/
def attrBody (attr : Attr) : List Char :=
  attr.name ++ '=' :: '"' :: (attr.value.flatMap escapeChar ++ ['"'])

theorem attrText_eq (attr : Attr) : attrText attr = ' ' :: attrBody attr := rfl

theorem head_attrBody {attr : Attr} (hattr : LegalAttr attr) (s : List Char) :
    ∀ c ∈ (attrBody attr ++ s).head?, isBlank c = false := by
  intro c hc
  rw [attrBody] at hc
  cases hname : attr.name with
  | nil =>
    rw [hname] at hc
    rw [← Option.some.inj hc]
    decide
  | cons d name =>
    rw [hname] at hc
    have hd : isAttrChar d = true := hattr.1 d (by rw [hname]; exact List.mem_cons_self)
    rw [← Option.some.inj hc]
    exact isBlank_of_isTagChar (isTagChar_of_isAttrChar hd)

/-- An attribute is read, up to the next one. -/
theorem nextAttr_attrBody {attr : Attr} (hattr : LegalAttr attr) {buffer : List Char}
    (hstart : ignoreSpaces buffer = attrBody attr ++ rest) :
    nextAttr { state with attrbuffer := some buffer } =
      pure (some (attr, { state with attrbuffer := some (ignoreSpaces rest) })) := by
  have htake : (attrBody attr ++ rest).takeWhile isAttrChar = attr.name := by
    rw [attrBody, List.append_assoc, List.takeWhile_append_of_pos hattr.1,
      List.cons_append, List.takeWhile_cons_of_neg (by decide), List.append_nil]
  have hdrop : (attrBody attr ++ rest).dropWhile isAttrChar =
      '=' :: '"' :: (attr.value.flatMap escapeChar ++ '"' :: rest) := by
    rw [attrBody, List.append_assoc, List.dropWhile_append_of_pos hattr.1,
      List.cons_append, List.dropWhile_cons_of_neg (by decide), List.cons_append,
      List.append_assoc, List.singleton_append]
  unfold nextAttr
  simp only [hstart, htake, hdrop, unescape_value]
  rfl

/-- All attributes are read. -/
theorem importAttrs_attrText {attrs : List Attr} (hattrs : ∀ attr ∈ attrs, LegalAttr attr)
    {fuel : Nat} (hfuel : attrs.length < fuel) {buffer : List Char}
    (hstart : ignoreSpaces buffer = ignoreSpaces (attrs.flatMap attrText)) :
    ∃ attrbuffer, importAttrs fuel { state with attrbuffer := some buffer } =
      pure (attrs, { state with attrbuffer := attrbuffer }) := by
  induction attrs generalizing fuel buffer with
  | nil =>
    obtain ⟨fuel, rfl⟩ := Nat.exists_eq_succ_of_ne_zero (Nat.ne_zero_of_lt hfuel)
    refine ⟨some buffer, ?_⟩
    have hnone : nextAttr { state with attrbuffer := some buffer } = pure none := by
      unfold nextAttr
      simp only [hstart]
      rfl
    rw [importAttrs, hnone]
    rfl
  | cons attr attrs ih =>
    have hattr := hattrs attr List.mem_cons_self
    have hblanks : ∀ c ∈ [' '], isBlank c = true := fun c hc => by
      rw [List.mem_singleton.mp hc]
      decide
    have hbody : ignoreSpaces ((attr :: attrs).flatMap attrText) =
        attrBody attr ++ attrs.flatMap attrText := by
      rw [List.flatMap_cons, attrText_eq, List.cons_append, ← List.singleton_append]
      exact ignoreSpaces_append hblanks (head_attrBody hattr _)
    obtain ⟨fuel, rfl⟩ := Nat.exists_eq_succ_of_ne_zero (Nat.ne_zero_of_lt hfuel)
    obtain ⟨attrbuffer, hrest⟩ := ih (fun attr hmem => hattrs attr (List.mem_cons_of_mem _ hmem))
      (Nat.lt_of_succ_lt_succ hfuel) (ignoreSpaces_twice (attrs.flatMap attrText))
    refine ⟨attrbuffer, ?_⟩
    rw [importAttrs, nextAttr_attrBody hattr (hstart.trans hbody)]
    change (importAttrs fuel { state with
      attrbuffer := some (ignoreSpaces (attrs.flatMap attrText)) } >>= _) = _
    rw [hrest]
    rfl

end Attributes

/-! ## Tags -/

section Tags

variable {rest name : List Char} {attrs : List Attr} {state : ImportState}

/-- A character that neither ends a tag nor a string. -/
def isInner (c : Char) : Bool := c ≠ '>' ∧ c ≠ '\x00'

theorem isInner_of_isTagChar {c : Char} (hc : isTagChar c = true) : isInner c = true := by
  refine decide_eq_true ⟨?_, ?_⟩
  all_goals
    rintro rfl
    exact absurd hc (by decide)

theorem isInner_of_mem_escapeChar {c d : Char} (hd : d ≠ '\x00') (hc : c ∈ escapeChar d) :
    isInner c = true := by
  unfold escapeChar at hc
  split at hc
  · next hesc =>
    have hall : (replacement d).all isInner = true := by
      simp only [escapable, decide_eq_true_eq] at hesc
      rcases hesc with rfl | rfl | rfl | rfl | rfl | rfl | rfl
      all_goals rfl
    exact List.all_eq_true.mp hall c hc
  · next hesc =>
    simp only [escapable, decide_eq_true_eq, not_or] at hesc
    rw [List.mem_singleton.mp hc]
    exact decide_eq_true ⟨hesc.2.2.2.2.2.1, hd⟩

theorem isInner_of_mem_attrText {attr : Attr} (hattr : LegalAttr attr) {c : Char}
    (hc : c ∈ attrText attr) : isInner c = true := by
  simp only [attrText, List.mem_cons, List.mem_append, List.mem_flatMap, List.not_mem_nil,
    or_false] at hc
  rcases hc with rfl | hname | rfl | rfl | ⟨d, hd, hc⟩ | rfl
  · rfl
  · exact isInner_of_isTagChar (isTagChar_of_isAttrChar (hattr.1 c hname))
  · rfl
  · rfl
  · exact isInner_of_mem_escapeChar (hattr.2 d hd) hc
  · rfl

def tagText (name : List Char) (attrs : List Attr) (closed : Bool) : List Char :=
  name ++ (attrs.flatMap attrText ++ if closed then ['/'] else [])

theorem isInner_of_mem_tagText {closed : Bool} (hname : ∀ c ∈ name, isTagChar c = true)
    (hattrs : ∀ attr ∈ attrs, LegalAttr attr) {c : Char} (hc : c ∈ tagText name attrs closed) :
    isInner c = true := by
  rw [tagText, List.mem_append, List.mem_append, List.mem_flatMap] at hc
  rcases hc with hc | ⟨attr, hattr, hc⟩ | hc
  · exact isInner_of_isTagChar (hname c hc)
  · exact isInner_of_mem_attrText (hattrs attr hattr) hc
  · cases closed with
    | true =>
      rw [List.mem_singleton.mp hc]
      rfl
    | false => exact absurd hc List.not_mem_nil

theorem behind_append {c : Char} {pre : List Char} (hpre : ∀ d ∈ pre, d ≠ c) (s : List Char) :
    behind c (pre ++ c :: s) = s := by
  rw [behind, List.dropWhile_append_of_pos (by simpa using hpre),
    List.dropWhile_cons_of_neg (by simp), List.tail_cons]

/-- A tag ends at its first `>`. -/
theorem cutTag_append {tag : List Char} (htag : ∀ c ∈ tag, isInner c = true) (rest : List Char) :
    cutTag (tag ++ '>' :: rest) = pure (tag, rest) := by
  have hne : ∀ c ∈ tag, c ≠ '>' := fun c hc => (of_decide_eq_true (htag c hc)).1
  rw [cutTag, if_pos (by simp), behind_append hne,
    List.takeWhile_append_of_pos (by simpa using hne), List.takeWhile_cons_of_neg (by simp),
    List.append_nil]

/-- Only the tag of an element without content and children ends in a slash. -/
theorem getLast_tagText (hname : ∀ c ∈ name, isTagChar c = true) (closed : Bool) :
    (tagText name attrs closed).getLast? = some '/' ↔ closed = true := by
  cases closed with
  | true => simp [tagText, List.getLast?_append]
  | false =>
    refine ⟨fun hlast => ?_, fun hfalse => absurd hfalse (by decide)⟩
    rcases List.eq_nil_or_concat' attrs with rfl | ⟨init, attr, rfl⟩
    · have hmem := List.mem_of_getLast? hlast
      simp only [tagText, List.flatMap_nil, List.append_nil, if_neg Bool.false_ne_true] at hmem
      exact absurd (hname _ hmem) (by decide)
    · have htext : tagText name (init ++ [attr]) false = name ++ init.flatMap attrText ++ ' ' ::
          (attr.name ++ '=' :: '"' :: attr.value.flatMap escapeChar) ++ ['"'] := by
        simp [tagText, attrText]
      rw [htext, List.getLast?_concat] at hlast
      exact absurd (Option.some.inj hlast) (by decide)

theorem readTag_tagText (hname : ∀ c ∈ name, isTagChar c = true) (closed : Bool)
    (rest : List Char) : readTag (tagText name attrs closed) rest = pure ⟨rest,
      if attrs = [] then none else some (attrs.flatMap attrText).tail, name, closed⟩ := by
  have hlast := @getLast_tagText name attrs hname closed
  have hclosed : decide ((tagText name attrs closed).getLast? = some '/') = closed := by
    cases closed with
    | true => exact decide_eq_true (hlast.mpr rfl)
    | false => exact decide_eq_false fun h => Bool.false_ne_true (hlast.mp h)
  have htag : (if (tagText name attrs closed).getLast? = some '/' then
      (tagText name attrs closed).dropLast else tagText name attrs closed) =
      name ++ attrs.flatMap attrText := by
    cases closed with
    | true => rw [if_pos (hlast.mpr rfl), tagText, if_pos rfl, ← List.append_assoc,
        List.dropLast_concat]
    | false => rw [if_neg fun h => Bool.false_ne_true (hlast.mp h), tagText,
        if_neg Bool.false_ne_true, List.append_nil]
  have hrest : ∀ c ∈ (attrs.flatMap attrText).head?, isTagChar c = false := by
    intro c hc
    cases attrs with
    | nil => exact absurd hc (by simp)
    | cons attr attrs =>
      rw [← Option.some.inj hc]
      rfl
  have hspan := span_append hname hrest
  simp only [readTag, htag, hspan, hclosed]
  cases attrs with
  | nil =>
    rw [List.flatMap_nil, List.append_nil]
    rfl
  | cons attr attrs => rfl

theorem head_tag {blanks : List Char} (hblanks : ∀ c ∈ blanks, isBlank c = true) (s : List Char) :
    ignoreSpaces (blanks ++ '<' :: s) = '<' :: s :=
  ignoreSpaces_append hblanks fun c hc => by
    rw [← Option.some.inj hc]
    rfl

/-- Where a child is found: the state after its tag. -/
theorem findChild_tagText {closed : Bool} {blanks : List Char}
    (hblanks : ∀ c ∈ blanks, isBlank c = true) (hne : name ≠ [])
    (hname : ∀ c ∈ name, isTagChar c = true) (hattrs : ∀ attr ∈ attrs, LegalAttr attr)
    (hopen : state.closed = false)
    (hbuffer : state.tagbuffer = blanks ++ '<' :: (tagText name attrs closed ++ '>' :: rest)) :
    findChild state = pure (some ⟨rest,
      if attrs = [] then none else some (attrs.flatMap attrText).tail, name, closed⟩) := by
  have hhead : (tagText name attrs closed ++ '>' :: rest).head? ≠ some '/' := by
    cases name with
    | nil => exact absurd rfl hne
    | cons c name =>
      intro hslash
      have hc := hname c List.mem_cons_self
      rw [Option.some.inj hslash] at hc
      exact absurd hc (by decide)
  have hinner : ∀ c ∈ tagText name attrs closed, isInner c = true := fun c hc =>
    isInner_of_mem_tagText hname hattrs hc
  simp only [findChild, hbuffer, head_tag hblanks]
  rw [hopen, if_neg Bool.false_ne_true, if_neg (by simp), List.tail_cons, if_neg hhead,
    cutTag_append hinner]
  change (readTag (tagText name attrs closed) rest >>= _) = _
  rw [readTag_tagText hname]
  rfl

/-- An element that has not closed itself ends with its closing tag. -/
theorem closeTag_closingTag {blanks : List Char} (hblanks : ∀ c ∈ blanks, isBlank c = true)
    (hname : ∀ c ∈ state.tagname, isTagChar c = true) (hopen : state.closed = false)
    (hbuffer : state.tagbuffer = blanks ++ (closingTag state.tagname ++ rest)) :
    closeTag state = pure { state with tagbuffer := '\n' :: rest } := by
  have hinner : ∀ c ∈ '/' :: state.tagname, isInner c = true := by
    intro c hc
    rcases List.mem_cons.mp hc with rfl | hc
    · rfl
    · exact isInner_of_isTagChar (hname c hc)
  have htext : closingTag state.tagname ++ rest =
      '<' :: ('/' :: state.tagname ++ '>' :: '\n' :: rest) := by
    simp [closingTag]
  rw [htext] at hbuffer
  simp only [closeTag, hbuffer, head_tag hblanks]
  rw [hopen, if_neg Bool.false_ne_true, if_neg (by simp), List.tail_cons, cutTag_append hinner]
  exact if_pos rfl

/-- The content ends at the next tag. -/
theorem getContent_append {content : List Char} (hcontent : ∀ c ∈ content, c ≠ '<')
    (hopen : state.closed = false) (hbuffer : state.tagbuffer = content ++ '<' :: rest) :
    getContent state content.length =
      pure (content, { state with tagbuffer := '<' :: rest }) := by
  have hspan := @span_append content ('<' :: rest) (· ≠ '<') (by simpa using hcontent)
    (fun c hc => by rw [← Option.some.inj hc]; rfl)
  rw [getContent, hopen, if_neg Bool.false_ne_true, hbuffer, if_pos (by simp), hspan.1, hspan.2]
  exact if_pos rfl

end Tags

/-! ## Elements -/

section Elements

variable (contents : List Char → List Attr → Option Nat)

def isClosed (content : List Char) (children : List Elem) : Bool := content = [] ∧ children.isEmpty

def inside (indent : Nat) (name content : List Char) (children : List Elem) : List Char :=
  if content ≠ [] then content ++ closingTag name
  else if children ≠ [] then '\n' :: (renderAll (indent + 2) children ++
    (List.replicate indent ' ' ++ closingTag name))
  else ['\n']

theorem render_eq (indent : Nat) (name : List Char) (attrs : List Attr) (content : List Char)
    (children : List Elem) : render indent (.node name attrs content children) =
      List.replicate indent ' ' ++ '<' :: (tagText name attrs (isClosed content children) ++
        '>' :: inside indent name content children) := by
  rw [render, tagText, inside, isClosed]
  by_cases hcontent : content = []
  · cases children with
    | nil => simp [hcontent]
    | cons e es => simp [hcontent]
  · simp [hcontent]

/-- The state after the tag of an element. -/
def childOf (indent : Nat) (rest : List Char) : Elem → ImportState
  | .node name attrs content children =>
    ⟨inside indent name content children ++ rest,
      if attrs = [] then none else some (attrs.flatMap attrText).tail, name,
      isClosed content children⟩

theorem blanks_replicate (indent : Nat) :
    ∀ c ∈ '\n' :: List.replicate indent ' ', isBlank c = true := by
  intro c hc
  rcases List.mem_cons.mp hc with rfl | hc
  · rfl
  · rw [List.eq_of_mem_replicate hc]
    rfl

variable {contents}

/-- The next child is found behind the one before it. -/
theorem findChild_render {e : Elem} (he : Legal contents e) {state : ImportState} {indent : Nat}
    {rest : List Char} (hopen : state.closed = false)
    (hbuffer : state.tagbuffer = '\n' :: (render indent e ++ rest)) :
    findChild state = pure (some (childOf indent rest e)) := by
  obtain ⟨name, attrs, content, children⟩ := e
  rw [render_eq] at hbuffer
  refine findChild_tagText (blanks_replicate indent) he.1.1 he.1.2 he.2.1 hopen ?_
  rw [hbuffer]
  simp only [List.append_assoc, List.cons_append]

/-- The attributes of a tag, which may have none. -/
theorem importAttrs_tag {attrs : List Attr} (hattrs : ∀ attr ∈ attrs, LegalAttr attr) {fuel : Nat}
    (hfuel : attrs.length < fuel) (tagbuffer name : List Char) (closed : Bool) :
    ∃ attrbuffer, importAttrs fuel
        ⟨tagbuffer, if attrs = [] then none else some (attrs.flatMap attrText).tail, name, closed⟩ =
      pure (attrs, ⟨tagbuffer, attrbuffer, name, closed⟩) := by
  cases attrs with
  | nil =>
    obtain ⟨fuel, rfl⟩ := Nat.exists_eq_succ_of_ne_zero (Nat.ne_zero_of_lt hfuel)
    exact ⟨none, rfl⟩
  | cons attr attrs =>
    exact @importAttrs_attrText ⟨tagbuffer, none, name, closed⟩ (attr :: attrs) hattrs fuel hfuel
      (((attr :: attrs).flatMap attrText).tail) rfl

/-- The rest of an element, once its attributes are read. -/
def importBody (contents : List Char → List Attr → Option Nat) (fuel : Nat) (attrs : List Attr)
    (state : ImportState) : Parse (Elem × ImportState) :=
  (contents state.tagname attrs).elim
    (do
      let (children, state) ← importChildren contents fuel state
      let state ← closeTag state
      return (.node state.tagname attrs [] children, state))
    fun length => do
      let (content, state) ← getContent state length
      let state ← closeTag state
      return (.node state.tagname attrs content [], state)

theorem importElem_eq (fuel : Nat) (state : ImportState) : importElem contents (fuel + 1) state =
    (importAttrs (fuel + 1) state >>= fun r => importBody contents fuel r.1 r.2) := rfl

mutual

/-- An element is read back as it was exported, up to the end of its line. -/
theorem importElem_render : ∀ (e : Elem), Legal contents e → ∀ (indent fuel : Nat)
    (rest : List Char), cost e ≤ fuel →
      ∃ state, importElem contents fuel (childOf indent rest e) = pure (e, state) ∧
        state.tagbuffer = '\n' :: rest
  | .node name attrs content children, he, indent, fuel, rest, hfuel => by
    obtain ⟨⟨hne, hname⟩, hattrs, hcontent, hkind, hchildren⟩ := he
    obtain ⟨fuel, rfl⟩ := Nat.exists_eq_succ_of_ne_zero
      (Nat.ne_zero_of_lt (Nat.lt_of_lt_of_le (Nat.succ_pos _) hfuel))
    rw [cost] at hfuel
    obtain ⟨attrbuffer, hread⟩ := @importAttrs_tag attrs hattrs (fuel + 1) (by omega)
      (inside indent name content children ++ rest) name (isClosed content children)
    rw [importElem_eq, childOf, hread]
    change ∃ state, importBody contents fuel attrs _ = _ ∧ _
    unfold importBody
    dsimp only
    cases hcon : contents name attrs with
    | none =>
      rw [hcon] at hkind
      have hnil : content = [] := hkind
      subst hnil
      cases children with
      | nil =>
        obtain ⟨fuel, rfl⟩ : ∃ k, fuel = k + 1 := ⟨fuel - 1, by rw [costs] at hfuel; omega⟩
        exact ⟨_, rfl, rfl⟩
      | cons e es =>
        have hall := importChildren_render (e :: es) hchildren (indent + 2) fuel
          (List.replicate indent ' ') (name ++ '>' :: '\n' :: rest)
          ⟨inside indent name [] (e :: es) ++ rest, attrbuffer, name, false⟩ (by omega) rfl
          (fun c hc => blanks_replicate indent c (List.mem_cons_of_mem _ hc))
          (by simp [inside, closingTag])
        have hclose := @closeTag_closingTag rest
          ⟨'\n' :: (List.replicate indent ' ' ++ '<' :: '/' :: (name ++ '>' :: '\n' :: rest)),
            attrbuffer, name, false⟩ _ (blanks_replicate indent) hname rfl (by simp [closingTag])
        refine ⟨⟨'\n' :: rest, attrbuffer, name, false⟩, ?_, rfl⟩
        change (importChildren contents fuel ⟨_, attrbuffer, name, false⟩ >>= _) = _
        rw [hall]
        change (closeTag _ >>= _) = _
        rw [hclose]
        rfl
    | some n =>
      rw [hcon] at hkind
      obtain ⟨rfl, rfl⟩ := hkind
      by_cases hnil : content = []
      · subst hnil
        exact ⟨_, rfl, rfl⟩
      · have hread := @getContent_append ('/' :: (name ++ '>' :: '\n' :: rest))
          ⟨inside indent name content [] ++ rest, attrbuffer, name, false⟩ content
          (fun c hc => (hcontent c hc).1) rfl (by simp [inside, hnil, closingTag])
        have hclose := @closeTag_closingTag rest
          ⟨'<' :: '/' :: (name ++ '>' :: '\n' :: rest), attrbuffer, name, false⟩ []
          (fun c hc => absurd hc List.not_mem_nil) hname rfl (by simp [closingTag])
        have hopen : isClosed content [] = false := by simp [isClosed, hnil]
        refine ⟨⟨'\n' :: rest, attrbuffer, name, false⟩, ?_, rfl⟩
        rw [hopen]
        change (getContent ⟨_, attrbuffer, name, false⟩ content.length >>= _) = _
        rw [hread]
        change (closeTag _ >>= _) = _
        rw [hclose]
        rfl

theorem importChildren_render : ∀ (es : List Elem), AllLegal contents es → ∀ (indent fuel : Nat)
    (blanks s : List Char) (state : ImportState), costs es ≤ fuel → state.closed = false →
      (∀ c ∈ blanks, isBlank c = true) →
      state.tagbuffer = '\n' :: (renderAll indent es ++ (blanks ++ '<' :: '/' :: s)) →
      importChildren contents fuel state =
        pure (es, { state with tagbuffer := '\n' :: (blanks ++ '<' :: '/' :: s) })
  | [], _, indent, fuel, blanks, s, state, hfuel, hopen, hblanks, hbuffer => by
    obtain ⟨fuel, rfl⟩ := Nat.exists_eq_succ_of_ne_zero (Nat.ne_zero_of_lt hfuel)
    have hnone : findChild state = pure none := by
      have hstart := @head_tag ('\n' :: blanks) (by
        intro c hc
        rcases List.mem_cons.mp hc with rfl | hc
        · rfl
        · exact hblanks c hc) ('/' :: s)
      have hbuffer' : state.tagbuffer = '\n' :: blanks ++ '<' :: '/' :: s := hbuffer
      simp only [findChild, hbuffer', hstart, hopen]
      rfl
    have hsame : state.tagbuffer = '\n' :: (blanks ++ '<' :: '/' :: s) := hbuffer
    rw [importChildren, hnone, ← hsame]
    rfl
  | e :: es, hes, indent, fuel, blanks, s, state, hfuel, hopen, hblanks, hbuffer => by
    rw [costs] at hfuel
    obtain ⟨fuel, rfl⟩ : ∃ k, fuel = k + 1 := ⟨fuel - 1, by omega⟩
    have hfind := @findChild_render contents e hes.1 state indent
      (renderAll indent es ++ (blanks ++ '<' :: '/' :: s)) hopen
      (by rw [hbuffer, renderAll, List.append_assoc])
    obtain ⟨child, helem, hrest⟩ := importElem_render e hes.1 indent fuel
      (renderAll indent es ++ (blanks ++ '<' :: '/' :: s)) (by omega)
    have hchildren := importChildren_render es hes.2 indent fuel blanks s
      (closeChild child state) (by omega) hopen hblanks hrest
    rw [importChildren, hfind]
    change (importElem contents fuel _ >>= _) = _
    rw [helem]
    change (importChildren contents fuel (closeChild child state) >>= _) = _
    rw [hchildren]
    rfl

end

mutual

theorem simple_of_legal : ∀ e : Elem, Legal contents e → Simple e
  | .node name attrs content children, he => by
    obtain ⟨-, -, -, hkind, hchildren⟩ := he
    refine ⟨?_, allSimple_of_legal children hchildren⟩
    cases hcon : contents name attrs with
    | none =>
      rw [hcon] at hkind
      exact .inl hkind
    | some n =>
      rw [hcon] at hkind
      exact .inr hkind.1

theorem allSimple_of_legal : ∀ es : List Elem, AllLegal contents es → AllSimple es
  | [], _ => trivial
  | e :: es, hes => ⟨simple_of_legal e hes.1, allSimple_of_legal es hes.2⟩

end

theorem length_le_attrText (attrs : List Attr) :
    attrs.length ≤ (attrs.flatMap attrText).length := by
  induction attrs with
  | nil => exact Nat.le_refl _
  | cons attr attrs ih =>
    rw [List.flatMap_cons, List.length_append, List.length_cons, attrText_eq, List.length_cons]
    omega

mutual

/-- The turns are no more than twice the characters. -/
theorem cost_lt : ∀ (e : Elem) (indent : Nat), Simple e → cost e < 2 * (render indent e).length
  | .node name attrs content children, indent, he => by
    have hattrs := length_le_attrText attrs
    have hchildren := costs_le children (indent + 2) he.2
    have hinside : costs children ≤ 2 * (inside indent name content children).length := by
      unfold inside
      split
      · next hcontent =>
        obtain rfl := he.1.resolve_left hcontent
        rw [costs, List.length_append, closingTag, List.length_cons]
        omega
      · split
        · rw [List.length_cons, List.length_append]
          omega
        · next hnil =>
          rw [not_not.mp hnil, costs, List.length_singleton]
          omega
    rw [cost, render_eq, tagText]
    simp only [List.length_append, List.length_cons]
    omega

theorem costs_le : ∀ (es : List Elem) (indent : Nat), AllSimple es →
    costs es ≤ 2 * (renderAll indent es).length + 1
  | [], _, _ => Nat.le_refl _
  | e :: es, indent, hes => by
    have he := cost_lt e indent hes.1
    have hes := costs_le es indent hes.2
    rw [costs, renderAll, List.length_append]
    omega

end

theorem ne_zero_of_isInner {c : Char} (hc : isInner c = true) : c ≠ '\x00' :=
  (of_decide_eq_true hc).2

theorem closingTag_clean {name : List Char} (hname : ∀ c ∈ name, isTagChar c = true) :
    ∀ c ∈ closingTag name, c ≠ '\x00' := by
  intro c hc
  simp only [closingTag, List.mem_cons, List.mem_append, List.not_mem_nil, or_false] at hc
  rcases hc with rfl | rfl | hc | rfl | rfl
  · decide
  · decide
  · exact ne_zero_of_isInner (isInner_of_isTagChar (hname c hc))
  · decide
  · decide

theorem spaces_clean (indent : Nat) : ∀ c ∈ List.replicate indent ' ', c ≠ '\x00' := by
  intro c hc
  rw [List.eq_of_mem_replicate hc]
  decide

mutual

/-- Nothing that is exported ends the string. -/
theorem render_clean : ∀ (e : Elem), Legal contents e → ∀ (indent : Nat), ∀ c ∈ render indent e,
    c ≠ '\x00'
  | .node name attrs content children, he, indent, c, hc => by
    obtain ⟨⟨-, hname⟩, hattrs, hcontent, -, hchildren⟩ := he
    have hall := renderAll_clean children hchildren (indent + 2)
    rw [render_eq, List.mem_append, List.mem_cons, List.mem_append, List.mem_cons] at hc
    rcases hc with hc | rfl | hc | rfl | hc
    · exact spaces_clean indent c hc
    · decide
    · exact ne_zero_of_isInner (isInner_of_mem_tagText hname hattrs hc)
    · decide
    · unfold inside at hc
      split at hc
      · rcases List.mem_append.mp hc with hc | hc
        · exact (hcontent c hc).2
        · exact closingTag_clean hname c hc
      · split at hc
        · simp only [List.mem_cons, List.mem_append] at hc
          rcases hc with rfl | hc | hc | hc
          · decide
          · exact hall c hc
          · exact spaces_clean indent c hc
          · exact closingTag_clean hname c hc
        · rw [List.mem_singleton.mp hc]
          decide

theorem renderAll_clean : ∀ (es : List Elem), AllLegal contents es → ∀ (indent : Nat),
    ∀ c ∈ renderAll indent es, c ≠ '\x00'
  | [], _, _, c, hc => absurd hc List.not_mem_nil
  | e :: es, hes, indent, c, hc => by
    rw [renderAll, List.mem_append] at hc
    rcases hc with hc | hc
    · exact render_clean e hes.1 indent c hc
    · exact renderAll_clean es hes.2 indent c hc

end

/-! ## The whole buffer -/

variable {children : List Elem}

end Elements

/-- A machine whose name has to be escaped, with a core and what a user has added. -/
def machine : List Elem :=
  [.node ['o', 'b', 'j', 'e', 'c', 't']
    [⟨['t', 'y', 'p', 'e'], ['M', 'a', 'c', 'h', 'i', 'n', 'e']⟩,
      ⟨['n', 'a', 'm', 'e'], ['a', '<', '"', 'b', '&', '\n']⟩] []
    [.node ['u', 's', 'e', 'r', 'd', 'a', 't', 'a'] [⟨['l', 'e', 'n', 'g', 't', 'h'], ['2']⟩]
        ['x', 'y'] [],
      .node ['o', 'b', 'j', 'e', 'c', 't'] [⟨['t', 'y', 'p', 'e'], ['C', 'o', 'r', 'e']⟩] [] []]]

end LibQuo.Xml
