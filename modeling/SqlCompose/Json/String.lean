import SqlCompose.Json.Cursor
/-!
Strings of a JSON text, from behind their opening quote: reading their characters, and skipping them. Both
walk over the characters once, in one of a few states. A skipped string may hold escapes of surrogates in
any order, a string that is read may not.
-/

namespace SqlCompose.Json

/-- The number of bytes of some characters. -/
def byteLength : List Char → Nat
  | [] => 0
  | c :: cs => c.utf8Size + byteLength cs

/-- The character that a simple escape stands for. -/
def simpleEscape? : Char → Option Char
  | '"' => some '"'
  | '\\' => some '\\'
  | '/' => some '/'
  | 'b' => some '\x08'
  | 'f' => some '\x0c'
  | 'n' => some '\n'
  | 'r' => some '\r'
  | 't' => some '\t'
  | _ => none

/-- The fault of a hexadecimal escape with `missing` digits left to read from a place: an unfinished text if
fewer bytes are left, an invalid escape behind them otherwise. -/
def hexFault (k : Cursor) (missing : Nat) : Fault :=
  if byteLength k.rest < missing then ⟨.endInString, k.offset + byteLength k.rest⟩
  else ⟨.invalidEscape, k.offset + missing⟩

/-- Where the reading of a string stands. -/
inductive StringState
  | plain
  /-- Behind a backslash. -/
  | escape
  /-- Inside a hexadecimal escape with `missing` digits to come. A leading surrogate may stand before. -/
  | hex (leading : Option Nat) (missing value : Nat)
  /-- Behind the escape of a leading surrogate. -/
  | surrogate (leading : Nat)
  /-- Behind a leading surrogate and a backslash. -/
  | surrogateEscape (leading : Nat)

/-- What an escape with the given code unit stands for. A trailing surrogate needs a leading one before it,
and a leading one needs a trailing one behind it. -/
def ofCodeUnit (leading : Option Nat) (n : Nat) : Except Flaw (Char ⊕ StringState) :=
  match leading with
  | none =>
    if 0xdc00 ≤ n ∧ n ≤ 0xdfff then .error .loneSurrogate
    else if 0xd800 ≤ n ∧ n ≤ 0xdbff then .ok (.inr (.surrogate n))
    else .ok (.inl (Char.ofNat n))
  | some l =>
    if 0xdc00 ≤ n ∧ n ≤ 0xdfff then
      .ok (.inl (Char.ofNat (0x10000 + (l - 0xd800) * 0x400 + (n - 0xdc00))))
    else .error .loneSurrogate

/-- The characters of a string and the place behind its closing quote. -/
def stringChars : StringState → List Char → Nat → Except Fault (List Char × Cursor)
  | _, [], n => .error ⟨.endInString, n⟩
  | .plain, c :: cs, n =>
    if c = '"' then .ok ([], ⟨cs, n + 1⟩)
    else if c = '\\' then stringChars .escape cs (n + 1)
    else if c.toNat < 0x20 then .error ⟨.controlCharacter, n + 1⟩
    else do
      let (s, k) ← stringChars .plain cs (n + c.utf8Size)
      return (c :: s, k)
  | .escape, c :: cs, n =>
    match simpleEscape? c with
    | some d => do
      let (s, k) ← stringChars .plain cs (n + 1)
      return (d :: s, k)
    | none =>
      if c = 'u' then stringChars (.hex none 4 0) cs (n + 1) else .error ⟨.invalidEscape, n + 1⟩
  | .hex leading missing value, c :: cs, n =>
    match hexValue? c with
    | none => .error (hexFault ⟨c :: cs, n⟩ missing)
    | some d =>
      let value := 16 * value + d
      if 1 < missing then stringChars (.hex leading (missing - 1) value) cs (n + 1)
      else match ofCodeUnit leading value with
        | .error flaw => .error ⟨flaw, n + 1⟩
        | .ok (.inr state) => stringChars state cs (n + 1)
        | .ok (.inl d) => do
          let (s, k) ← stringChars .plain cs (n + 1)
          return (d :: s, k)
  | .surrogate l, c :: cs, n =>
    if c = '\\' then stringChars (.surrogateEscape l) cs (n + 1)
    else .error ⟨.unfinishedSurrogates, n + 1⟩
  | .surrogateEscape l, c :: cs, n =>
    if c = 'u' then stringChars (.hex (some l) 4 0) cs (n + 1)
    else .error ⟨.unfinishedSurrogates, n + 1⟩

/-- Where the skipping of a string stands. -/
inductive SkipState
  | plain
  | escape
  | hex (missing : Nat)

/-- The place behind the closing quote of a string. -/
def skipChars : SkipState → List Char → Nat → Except Fault Cursor
  | _, [], n => .error ⟨.endInString, n⟩
  | .plain, c :: cs, n =>
    if c = '"' then .ok ⟨cs, n + 1⟩
    else if c = '\\' then skipChars .escape cs (n + 1)
    else if c.toNat < 0x20 then .error ⟨.controlCharacter, n⟩
    else skipChars .plain cs (n + c.utf8Size)
  | .escape, c :: cs, n =>
    if (simpleEscape? c).isSome then skipChars .plain cs (n + 1)
    else if c = 'u' then skipChars (.hex 4) cs (n + 1)
    else .error ⟨.invalidEscape, n + 1⟩
  | .hex missing, c :: cs, n =>
    match hexValue? c with
    | none => .error (hexFault ⟨c :: cs, n⟩ missing)
    | some _ => skipChars (if 1 < missing then .hex (missing - 1) else .plain) cs (n + 1)

namespace Reader

/-- Read a string from behind its opening quote. -/
def string : Reader String := fun k => do
  let (s, k) ← stringChars .plain k.rest k.offset
  return (String.ofList s, k)

/-- Skip a string from behind its opening quote. -/
def skipString : Reader Unit := fun k => do
  return ((), ← skipChars .plain k.rest k.offset)

end Reader

end SqlCompose.Json
