import CodeConcepts.Yaml.Token

/-!
# Documents

The tokens of a text are put together into nodes. An alias is replaced by the node it refers to; one
that refers to a node around it cannot be replaced and is kept as `Node.cycle`.
-/

namespace CodeConcepts.Yaml

/-- A node of a document. -/
inductive Node where
  | scalar (style : Style) (tag : Option String) (text : String)
  | sequence (items : List Node)
  | mapping (pairs : List (Node × Node))
  /-- An alias for a node it is itself a part of. -/
  | cycle
deriving Repr, Inhabited

/-- A node that is not written at all. -/
def Node.empty : Node := .scalar .plain none ""

/-- The place between tokens, with what has been named so far. -/
structure Reading where
  tokens : List Token
  /-- Anchors and their nodes, the latest first; that of a node that is still open is a cycle. -/
  anchors : List (String × Node)
  /-- Handles of tags and what they stand for. -/
  handles : List (String × String)

namespace Reading

/-- The place behind the first token. -/
def next (r : Reading) : Reading := { r with tokens := r.tokens.tail }

/-- Whether one of some tokens comes first. -/
def isAt (r : Reading) (ts : List Token) : Bool := r.tokens.head?.any ts.contains

/-- Whether no token is left. -/
def atEnd (r : Reading) : Bool := r.tokens.isEmpty

/-- Names a node. -/
def name (r : Reading) (anchor : Option String) (n : Node) : Reading :=
  match anchor with
  | some a => { r with anchors := (a, n) :: r.anchors }
  | none => r

/-- What a tag stands for; its handle has to be known. -/
def tagText? (r : Reading) (handle rest : String) : Option String :=
  match r.handles.find? fun h => h.1 == handle with
  | some h => some (h.2 ++ rest)
  | none => none

end Reading

/-- Anchor and tag in front of a node, each at most once. -/
structure Properties where
  anchor : Option String
  tag : Option String

/-- Reads anchor and tag in front of a node. -/
def properties? (r : Reading) : Option (Properties × Reading) :=
  match r.tokens with
  | .anchor a :: .tag h s :: ts => do
    return (⟨some a, some (← r.tagText? h s)⟩, { r with tokens := ts })
  | .tag h s :: .anchor a :: ts => do
    return (⟨some a, some (← r.tagText? h s)⟩, { r with tokens := ts })
  | .anchor a :: ts => some (⟨some a, none⟩, { r with tokens := ts })
  | .tag h s :: ts => do return (⟨none, some (← r.tagText? h s)⟩, { r with tokens := ts })
  | _ => some (⟨none, none⟩, r)

/-- Where a node stands. -/
inductive Position where
  /-- Inside brackets. -/
  | flow
  /-- As a document or an item. -/
  | block
  /-- As a key or value, where the dashes of a sequence need no indentation. -/
  | indentless
deriving DecidableEq, Repr

mutual

/-- Reads a node. -/
def node? : Nat → Position → Reading → Option (Node × Reading)
  | 0, _, _ => none
  | fuel + 1, position, r =>
    match r.tokens with
    | .aliasOf name :: _ =>
      (r.anchors.find? fun a => a.1 == name).map fun a => (a.2, r.next)
    | _ =>
      match properties? r with
      | none => none
      | some (p, r) =>
        let collection (read : Reading → Option (Node × Reading)) : Option (Node × Reading) :=
          (read (r.name p.anchor .cycle)).map fun (n, r) => (n, r.name p.anchor n)
        match r.tokens with
        | .scalar style text :: _ =>
          let n := Node.scalar style p.tag text
          some (n, r.next.name p.anchor n)
        | .sequenceStart :: _ => collection fun r => flowItems? fuel true [] r.next
        | .mappingStart :: _ => collection fun r => flowPairs? fuel true [] r.next
        | .blockEntry :: _ =>
          if position = .indentless then collection fun r => indentlessItems? fuel [] r else none
        | .blockSequenceStart :: _ =>
          if position = .flow then none else collection fun r => blockItems? fuel [] r.next
        | .blockMappingStart :: _ =>
          if position = .flow then none else collection fun r => blockPairs? fuel [] r.next
        | _ =>
          if p.anchor.isSome || p.tag.isSome then
            let n := Node.scalar .plain p.tag ""
            some (n, r.name p.anchor n)
          else none

/-- Reads a node, or nothing in front of some tokens. -/
def nodeUnless? (fuel : Nat) (stops : List Token) (position : Position) (r : Reading) :
    Option (Node × Reading) :=
  match fuel with
  | 0 => none
  | fuel + 1 =>
    if r.isAt stops || r.atEnd then some (.empty, r) else node? fuel position r

/-- Reads the items of an indented sequence, those so far from the last to the first. -/
def blockItems? : Nat → List Node → Reading → Option (Node × Reading)
  | 0, _, _ => none
  | fuel + 1, done, r =>
    match r.tokens with
    | .blockEntry :: _ =>
      match nodeUnless? fuel [.blockEntry, .blockEnd] .block r.next with
      | some (n, r) => blockItems? fuel (n :: done) r
      | none => none
    | .blockEnd :: _ => some (.sequence done.reverse, r.next)
    | _ => none

/-- Reads the items of a sequence that is not indented. -/
def indentlessItems? : Nat → List Node → Reading → Option (Node × Reading)
  | 0, _, _ => none
  | fuel + 1, done, r =>
    match r.tokens with
    | .blockEntry :: _ =>
      match nodeUnless? fuel [.blockEntry, .key, .value, .blockEnd] .block r.next with
      | some (n, r) => indentlessItems? fuel (n :: done) r
      | none => none
    | _ => some (.sequence done.reverse, r)

/-- Reads the pairs of an indented mapping. -/
def blockPairs? : Nat → List (Node × Node) → Reading → Option (Node × Reading)
  | 0, _, _ => none
  | fuel + 1, done, r =>
    match r.tokens with
    | .key :: _ =>
      match nodeUnless? fuel [.key, .value, .blockEnd] .indentless r.next with
      | none => none
      | some (k, r) =>
        match r.tokens with
        | .value :: _ =>
          match nodeUnless? fuel [.key, .value, .blockEnd] .indentless r.next with
          | some (v, r) => blockPairs? fuel ((k, v) :: done) r
          | none => none
        | _ => blockPairs? fuel ((k, .empty) :: done) r
    | .blockEnd :: _ => some (.mapping done.reverse, r.next)
    | _ => none

/-- Reads the items of a sequence in brackets. -/
def flowItems? : Nat → Bool → List Node → Reading → Option (Node × Reading)
  | 0, _, _, _ => none
  | fuel + 1, first, done, r =>
    if r.isAt [.sequenceEnd] then some (.sequence done.reverse, r.next)
    else if !first && !r.isAt [.flowEntry] then none
    else
      let r := if first then r else r.next
      match r.tokens with
      | .sequenceEnd :: _ => some (.sequence done.reverse, r.next)
      | .key :: _ =>
        match nodeUnless? fuel [.value, .flowEntry, .sequenceEnd] .flow r.next with
        | none => none
        | some (k, r) =>
          match flowValue? fuel [.flowEntry, .sequenceEnd] r with
          | some (v, r) => flowItems? fuel false (.mapping [(k, v)] :: done) r
          | none => none
      | _ =>
        match node? fuel .flow r with
        | some (n, r) => flowItems? fuel false (n :: done) r
        | none => none

/-- Reads the value of a pair in brackets, if there is one. -/
def flowValue? : Nat → List Token → Reading → Option (Node × Reading)
  | 0, _, _ => none
  | fuel + 1, stops, r =>
    match r.tokens with
    | .value :: _ => nodeUnless? fuel stops .flow r.next
    | _ => some (.empty, r)

/-- Reads the pairs of a mapping in braces. -/
def flowPairs? : Nat → Bool → List (Node × Node) → Reading → Option (Node × Reading)
  | 0, _, _, _ => none
  | fuel + 1, first, done, r =>
    if r.isAt [.mappingEnd] then some (.mapping done.reverse, r.next)
    else if !first && !r.isAt [.flowEntry] then none
    else
      let r := if first then r else r.next
      match r.tokens with
      | .mappingEnd :: _ => some (.mapping done.reverse, r.next)
      | .key :: _ =>
        match nodeUnless? fuel [.value, .flowEntry, .mappingEnd] .flow r.next with
        | none => none
        | some (k, r) =>
          match flowValue? fuel [.flowEntry, .mappingEnd] r with
          | some (v, r) => flowPairs? fuel false ((k, v) :: done) r
          | none => none
      | _ =>
        match node? fuel .flow r with
        | some (k, r) => flowPairs? fuel false ((k, .empty) :: done) r
        | none => none

end

/-- The handles that are known without a directive. -/
def standardHandles : List (String × String) :=
  [("", ""), ("!", "!"), ("!!", "tag:yaml.org,2002:")]

/-- Reads the directives in front of a document: at most one version, which has to be 1.1 or 1.2,
and the handles of tags. -/
def directives? (seenVersion : Bool) (handles : List (String × String)) :
    List Token → Option (List (String × String) × List Token)
  | .version major minor :: ts =>
    if seenVersion || major ≠ 1 || (minor ≠ 1 && minor ≠ 2) then none
    else directives? true handles ts
  | .tagHandle handle start :: ts =>
    if handles.any fun h => h.1 == handle then none
    else directives? seenVersion (handles ++ [(handle, start)]) ts
  | ts => some (handles, ts)

/-- The node of a text that holds one document; a text without a document has an empty node. -/
def parse? (s : String) : Option Node := do
  let ts ← tokens? s
  if ts.isEmpty then return .empty
  let (handles, behind) ← directives? false [] ts
  let explicit := behind.head? = some .documentStart
  if behind.length ≠ ts.length && !explicit then none
  let ts := if explicit then behind.tail else behind
  let r : Reading := ⟨ts, [], handles ++ standardHandles⟩
  let fuel := 4 * (ts.length + 1)
  let (n, r) ←
    if explicit then nodeUnless? fuel [.documentStart, .documentEnd] .block r
    else node? fuel .block r
  if (r.tokens.dropWhile (· == .documentEnd)).isEmpty then return n else none

end CodeConcepts.Yaml
