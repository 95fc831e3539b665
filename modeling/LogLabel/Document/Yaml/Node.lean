import LogLabel.Document.Yaml.Token

set_option autoImplicit false

/-!
# Nodes

A document as nested mappings of scalars, composed from its tokens. A missing key or value
is an empty plain scalar, and so is an empty document. There is one document in a text.
-/

namespace LogLabel.Document.Yaml

/-- A part of a document. -/
inductive Node where
  | scalar (text : String) (isPlain : Bool)
  | mapping (entries : List (Node × Node))
deriving Inhabited

namespace Node

/-- What stands for a missing node. -/
def missing : Node := .scalar "" true

/-- Whether a key or value of a block mapping is missing before these tokens. -/
def isMissingInBlock : List Token → Bool
  | .key :: _ => true
  | .value :: _ => true
  | .blockEnd :: _ => true
  | _ => false

/-- Whether a value of a flow mapping is missing before these tokens. -/
def isMissingInFlow : List Token → Bool
  | .comma :: _ => true
  | .flowEnd :: _ => true
  | _ => false

mutual

/-- A node; block mappings are taken outside flow mappings only. -/
def ofTokens? (inFlow : Bool) : Nat → List Token → Option (Node × List Token)
  | 0, _ => none
  | fuel + 1, tokens =>
      match tokens with
      | .scalar text isPlain :: rest => some (.scalar text isPlain, rest)
      | .flowStart :: rest =>
          (flowEntries? true fuel rest).map fun (entries, rest) => (.mapping entries, rest)
      | .blockStart :: rest =>
          if inFlow then none
          else (blockEntries? fuel rest).map fun (entries, rest) => (.mapping entries, rest)
      | _ => none

/-- A key or value of a block mapping. -/
def blockPart? : Nat → List Token → Option (Node × List Token)
  | 0, _ => none
  | fuel + 1, tokens =>
      if isMissingInBlock tokens then some (missing, tokens) else ofTokens? false fuel tokens

/-- The value of a block mapping, with its colon. -/
def blockValue? : Nat → List Token → Option (Node × List Token)
  | 0, _ => none
  | fuel + 1, tokens =>
      match tokens with
      | .value :: rest => blockPart? fuel rest
      | _ => some (missing, tokens)

/-- The entries of a block mapping up to its end. -/
def blockEntries? : Nat → List Token → Option (List (Node × Node) × List Token)
  | 0, _ => none
  | fuel + 1, tokens =>
      match tokens with
      | .blockEnd :: rest => some ([], rest)
      | .key :: rest =>
          match blockPart? fuel rest with
          | none => none
          | some (key, rest) =>
              match blockValue? fuel rest with
              | none => none
              | some (value, rest) =>
                  (blockEntries? fuel rest).map fun (entries, rest) =>
                    ((key, value) :: entries, rest)
      | _ => none

/-- The value of a flow mapping, with its colon. -/
def flowValue? : Nat → List Token → Option (Node × List Token)
  | 0, _ => none
  | fuel + 1, tokens =>
      match tokens with
      | .value :: rest =>
          if isMissingInFlow rest then some (missing, rest) else ofTokens? true fuel rest
      | _ => some (missing, tokens)

/-- An entry of a flow mapping: with the mark of a key, or a key alone. -/
def flowEntry? : Nat → List Token → Option ((Node × Node) × List Token)
  | 0, _ => none
  | fuel + 1, tokens =>
      match tokens with
      | .key :: rest =>
          let key :=
            match rest with
            | .value :: _ => some (missing, rest)
            | _ => if isMissingInFlow rest then some (missing, rest) else ofTokens? true fuel rest
          match key with
          | none => none
          | some (key, rest) =>
              (flowValue? fuel rest).map fun (value, rest) => ((key, value), rest)
      | _ => (ofTokens? true fuel tokens).map fun (key, rest) => ((key, missing), rest)

/-- The entries of a flow mapping up to its end; a comma stands before all but the first. -/
def flowEntries? (first : Bool) : Nat → List Token → Option (List (Node × Node) × List Token)
  | 0, _ => none
  | fuel + 1, tokens =>
      match tokens with
      | .flowEnd :: rest => some ([], rest)
      | _ =>
          let tokens? :=
            match first, tokens with
            | true, tokens => some tokens
            | false, .comma :: rest => some rest
            | false, _ => none
          match tokens? with
          | none => none
          | some (.flowEnd :: rest) => some ([], rest)
          | some tokens =>
              match flowEntry? fuel tokens with
              | none => none
              | some (entry, rest) =>
                  (flowEntries? false fuel rest).map fun (entries, rest) => (entry :: entries, rest)

end

/-- The node of a document without its start mark. -/
def content? (marked : Bool) (tokens : List Token) : Option (Node × List Token) :=
  match marked, tokens with
  | _, [] => some (missing, [])
  | true, .documentStart :: _ => some (missing, tokens)
  | true, .documentEnd :: _ => some (missing, tokens)
  | _, tokens => ofTokens? false (4 * tokens.length + 4) tokens

/-- The node of the only document of a text. Marks of its end may follow it. -/
def ofDocument? (tokens : List Token) : Option Node :=
  let read :=
    match tokens with
    | .documentStart :: rest => content? true rest
    | tokens => content? false tokens
  match read with
  | some (node, rest) => if (rest.dropWhile (· = .documentEnd)).isEmpty then some node else none
  | none => none

end Node

/-- Reads a document. -/
def read? (text : String) : Option Node := (tokens? text).bind Node.ofDocument?

end LogLabel.Document.Yaml
