import LibQuo.Xml.Export

/-!
The minimalistic parser of `topology-xml-nolibxml.c`, with which the other processes of a node
read the topology. A string that the parser ends with a zero is a text of its own here, and a
pointer into it is what is left of that text.
-/

namespace LibQuo.Xml
open CText

/-- Why an import does not go on: the text is refused, or read behind its end. -/
inductive Stop
  | refused
  | fault (f : Fault)
  deriving DecidableEq

abbrev Parse := Except Stop

/-- `hwloc__nolibxml_import_state_data_s`. -/
structure ImportState where
  tagbuffer : List Char
  attrbuffer : Option (List Char)
  tagname : List Char
  closed : Bool

def isBlank (c : Char) : Bool := c = ' ' ∨ c = '\t' ∨ c = '\n'

def ignoreSpaces (buffer : List Char) : List Char := buffer.dropWhile isBlank

/-- `abcdefghijklmnopqrstuvwxyz_`. -/
def isAttrChar (c : Char) : Bool := ('a' ≤ c ∧ c ≤ 'z') ∨ c = '_'

/-- `abcdefghijklmnopqrstuvwxyz1234567890_`. -/
def isTagChar (c : Char) : Bool := isAttrChar c ∨ ('0' ≤ c ∧ c ≤ '9')

/-- The texts that are looked for behind an `&`, in order. -/
def entities : List (Char × List Char) :=
  [('\n', ['#', '1', '0', ';']), ('\r', ['#', '1', '3', ';']), ('\t', ['#', '9', ';']),
    ('"', ['q', 'u', 'o', 't', ';']), ('<', ['l', 't', ';']), ('>', ['g', 't', ';']),
    ('&', ['a', 'm', 'p', ';'])]

/-- The character that one turn of the loop stores, and what it leaves. -/
def unescapeChar : List Char → Option (Char × List Char)
  | [] => none
  | c :: s =>
    if c = '&' then
      (entities.find? (·.2.isPrefixOf s)).map fun e => (e.1, s.drop e.2.length)
    else some (c, s)

theorem unescapeChar_length {s s' : List Char} {c : Char} (h : unescapeChar s = some (c, s')) :
    s'.length < s.length := by
  cases s with
  | nil => exact absurd h (by simp [unescapeChar])
  | cons d s =>
    rw [List.length_cons, Nat.lt_succ_iff]
    rw [unescapeChar] at h
    split at h
    · obtain ⟨e, -, he⟩ := Option.map_eq_some_iff.mp h
      rw [← (Prod.mk.inj he).2, List.length_drop]
      exact Nat.sub_le _ _
    · exact Nat.le_of_eq (congrArg List.length (Prod.mk.inj (Option.some.inj h)).2.symm)

/-- The loop of `hwloc__nolibxml_import_next_attr`: the value, and what is behind its quote.
The end of the string is looked for only behind a character. -/
def unescape (s : List Char) : Parse (Option (List Char × List Char)) :=
  if s.head? = some '"' then pure (some ([], s.tail))
  else if s = [] then throw (.fault .outOfBounds)
  else match _h : unescapeChar s with
    | none => pure none
    | some (c, s') =>
      if s' = [] then pure none
      else do
        let r ← unescape s'
        return r.map fun r => (c :: r.1, r.2)
termination_by s.length
decreasing_by exact unescapeChar_length _h

/-- `hwloc__nolibxml_import_next_attr`, with no attribute where it returns `-1`. -/
def nextAttr (state : ImportState) : Parse (Option (Attr × ImportState)) :=
  match state.attrbuffer with
  | none => pure none
  | some attrbuffer =>
    let buffer := ignoreSpaces attrbuffer
    match buffer.dropWhile isAttrChar with
    | '=' :: '"' :: value => do
      let r ← unescape value
      return r.map fun r => (⟨buffer.takeWhile isAttrChar, r.1⟩,
        { state with attrbuffer := some (ignoreSpaces r.2) })
    | _ => pure none

def behind (c : Char) (s : List Char) : List Char := (s.dropWhile (· ≠ c)).tail

/-- A tag up to its `>`, and what is behind that. -/
def cutTag (buffer : List Char) : Parse (List Char × List Char) :=
  if '>' ∈ buffer then
    pure (buffer.takeWhile (· ≠ '>'), behind '>' buffer)
  else throw .refused

/-- The state after a tag: its name, its attributes, and whether it closes itself. -/
def readTag (tag rest : List Char) : Parse ImportState :=
  let closed := tag.getLast? = some '/'
  let tag := if closed then tag.dropLast else tag
  let attrs := tag.dropWhile isTagChar
  if attrs = [] then pure ⟨rest, none, tag, closed⟩
  else if attrs.head? = some ' ' then
    pure ⟨rest, some attrs.tail, tag.takeWhile isTagChar, closed⟩
  else throw .refused

/-- `hwloc__nolibxml_import_find_child`, with no child where it returns `0`. -/
def findChild (state : ImportState) : Parse (Option ImportState) :=
  let buffer := ignoreSpaces state.tagbuffer
  if state.closed then pure none
  else if buffer.head? ≠ some '<' then throw .refused
  else if buffer.tail.head? = some '/' then pure none
  else do
    let (tag, rest) ← cutTag buffer.tail
    let child ← readTag tag rest
    return some child

def closeTag (state : ImportState) : Parse ImportState :=
  let buffer := ignoreSpaces state.tagbuffer
  if state.closed then pure state
  else if buffer.head? ≠ some '<' then throw .refused
  else do
    let (tag, rest) ← cutTag buffer.tail
    if tag = '/' :: state.tagname then return { state with tagbuffer := rest }
    else throw .refused

def closeChild (state parent : ImportState) : ImportState :=
  { parent with tagbuffer := state.tagbuffer }

/-- `hwloc__nolibxml_import_get_content`; the `<` behind the content is put back. -/
def getContent (state : ImportState) (expectedLength : Nat) : Parse (List Char × ImportState) :=
  if state.closed then if expectedLength = 0 then pure ([], state) else throw .refused
  else if '<' ∈ state.tagbuffer then
    let content := state.tagbuffer.takeWhile (· ≠ '<')
    if content.length = expectedLength then
      pure (content, { state with tagbuffer := state.tagbuffer.dropWhile (· ≠ '<') })
    else throw .refused
  else throw .refused

/-! ## The calls of `topology-xml.c` -/

/-- All attributes, in at most `fuel` turns. -/
def importAttrs : Nat → ImportState → Parse (List Attr × ImportState)
  | 0, _ => throw (.fault .noFuel)
  | fuel + 1, state => do
    let r ← nextAttr state
    r.elim (pure ([], state)) fun r => do
      let (attrs, state) ← importAttrs fuel r.2
      return (r.1 :: attrs, state)

section Elements

-- Which elements have a content, by their names and attributes, and of which length.
variable (contents : List Char → List Attr → Option Nat)

mutual

/-- The calls for an element: its attributes, its content or its children, its end. -/
def importElem : Nat → ImportState → Parse (Elem × ImportState)
  | 0, _ => throw (.fault .noFuel)
  | fuel + 1, state => do
    let (attrs, state) ← importAttrs (fuel + 1) state
    (contents state.tagname attrs).elim
      (do
        let (children, state) ← importChildren fuel state
        let state ← closeTag state
        return (.node state.tagname attrs [] children, state))
      fun length => do
        let (content, state) ← getContent state length
        let state ← closeTag state
        return (.node state.tagname attrs content [], state)

/-- The calls for the children of an element. -/
def importChildren : Nat → ImportState → Parse (List Elem × ImportState)
  | 0, _ => throw (.fault .noFuel)
  | fuel + 1, state => do
    let child ← findChild state
    child.elim (pure ([], state)) fun child => do
      let (e, child) ← importElem fuel child
      let (es, state) ← importChildren fuel (closeChild child state)
      return (e :: es, state)

end

end Elements

end LibQuo.Xml
