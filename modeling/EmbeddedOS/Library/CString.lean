import EmbeddedOS.Library.CInt

namespace C

-- The bytes of an ASCII text.
def ascii (s : String) : List UInt8 :=
  s.toList.map fun c => c.toNat.toUInt8

-- The string that a buffer holds is what stands before its first NUL, a buffer without a NUL holds
-- none.
def string? (buf : List UInt8) : Option (List UInt8) :=
  if 0 ∈ buf then some (buf.takeWhile (· ≠ 0)) else none

-- Storing bytes at the start of a buffer leaves the bytes behind them as they were.
def overlay (bytes buf : List UInt8) : List UInt8 :=
  bytes ++ buf.drop bytes.length

-- `sprintf` stores a text and the NUL behind it.
def sprintf (buf text : List UInt8) : List UInt8 :=
  overlay (text ++ [0]) buf

-- `strcpy` does the same with a string.
def strcpy (dest src : List UInt8) : List UInt8 :=
  sprintf dest src

section

variable {bytes buf text rest : List UInt8} {n : ℕ}

theorem overlay_length (h : bytes.length ≤ buf.length) :
    (overlay bytes buf).length = buf.length := by
  simp [overlay, h]

-- A byte of the buffer is one of the new ones as far as these go.
theorem overlay_get (i : ℕ) :
    (overlay bytes buf)[i]? = if i < bytes.length then bytes[i]? else buf[i]? := by
  rw [overlay, List.getElem?_append]
  split
  case isTrue    => rfl
  case isFalse h => rw [List.getElem?_drop, Nat.add_sub_cancel' (not_lt.mp h)]

theorem overlay_take (h : n ≤ bytes.length) : (overlay bytes buf).take n = bytes.take n := by
  rw [overlay, List.take_append_of_le_length h]

theorem overlay_eq (h : buf.length ≤ bytes.length) : overlay bytes buf = bytes := by
  rw [overlay, List.drop_of_length_le h, List.append_nil]

theorem overlay_countP (bytes buf : List UInt8) (p : UInt8 → Bool) :
    (overlay bytes buf).countP p ≤ bytes.countP p + buf.countP p := by
  rw [overlay, List.countP_append]
  exact Nat.add_le_add_left (List.drop_sublist _ _).countP_le _

-- What stands in front of a first NUL is the string.
theorem string?_append (h : 0 ∉ text) : string? (text ++ 0 :: rest) = some text := by
  have hw : ∀ c ∈ text, decide (c ≠ 0) = true :=
    fun c hc => decide_eq_true <| ne_of_mem_of_not_mem hc h
  rw [string?, List.takeWhile_append_of_pos hw]
  simp

theorem zero_not_mem_string? (h : string? buf = some text) : 0 ∉ text := by
  simp only [string?] at h
  split at h
  case isFalse => contradiction
  case isTrue =>
    cases h
    intro hm
    exact absurd (List.mem_takeWhile_imp hm) (by simp)

-- A string that is received with its NUL ends there, whatever the buffer holds behind it.
theorem string?_overlay (h : 0 ∈ bytes) :
    string? (overlay bytes buf) = some (bytes.takeWhile (· ≠ 0)) := by
  have hn : bytes.takeWhile (· ≠ 0) ≠ bytes := by
    intro he
    exact absurd (List.mem_takeWhile_imp <| he.symm ▸ h) (by simp)
  have hl : (bytes.takeWhile (· ≠ 0)).length ≠ bytes.length :=
    mt (List.takeWhile_prefix _).eq_of_length hn
  rw [overlay, string?, if_pos (List.mem_append_left _ h), List.takeWhile_append, if_neg hl]

theorem prefix_sprintf (buf text : List UInt8) : text <+: sprintf buf text :=
  (List.prefix_append _ _).trans (List.prefix_append _ _)

theorem string?_sprintf (h : 0 ∉ text) : string? (sprintf buf text) = some text := by
  simp [sprintf, overlay, string?_append h]

theorem string?_strcpy_iff {dest src : List UInt8} (h : 0 ∉ src) :
    string? (strcpy dest src) = some text ↔ src = text := by
  rw [strcpy, string?_sprintf h, Option.some.injEq]

end

-- What `recv` returns: bytes, 0 at the end of the stream, or -1.
inductive Received
  | bytes (bytes : List UInt8)
  | eof
  | error
deriving DecidableEq

def isspace (c : UInt8) : Bool :=
  c = 32 || (9 ≤ c && c ≤ 13)

def isdigit (c : UInt8) : Bool :=
  48 ≤ c && c ≤ 57

-- The value of a sequence of decimal digits.
def digitsValue (ds : List UInt8) : ℕ :=
  ds.foldl (fun n d => 10 * n + (d.toNat - 48)) 0

-- An optional sign, and what stands behind it.
def sign : List UInt8 → Bool × List UInt8
  | 45 :: cs => (true, cs)
  | 43 :: cs => (false, cs)
  | cs       => (false, cs)

-- `strtol` in base ten: blanks, a sign and at least one digit, with the result forced into the
-- range of a 64-bit `long`.
def strtol (cs : List UInt8) : Option ℤ :=
  let (negative, cs) := sign (cs.dropWhile isspace)
  let ds := cs.takeWhile isdigit
  if ds = [] then
    none
  else
    let n : ℤ := digitsValue ds
    some <| max (-2 ^ 63) <| min (2 ^ 63 - 1) <| if negative then -n else n

-- `%d` and `atoi` store the `long` in an `int`.
def scanInt (cs : List UInt8) : Option ℤ :=
  (strtol cs).map int

def atoi (cs : List UInt8) : ℤ :=
  (scanInt cs).getD 0

-- `%s`: blanks and then the longest non-empty run of other characters, with the rest of the input.
def scanWord (cs : List UInt8) : Option (List UInt8 × List UInt8) :=
  let cs := cs.dropWhile isspace
  let word := cs.takeWhile (!isspace ·)
  if word = [] then none else some (word, cs.drop word.length)

theorem scanWord_cons {c : UInt8} (h : isspace c = false) (cs : List UInt8) :
    ∃ rest, scanWord (c :: cs) = some (c :: cs.takeWhile (!isspace ·), rest) := by
  simp [scanWord, h]

-- `%d` of a print.
def decimal (n : ℤ) : List UInt8 :=
  (if n < 0 then [45] else []) ++
    if n = 0 then [48] else (Nat.digits 10 n.natAbs).reverse.map fun d => (48 + d).toUInt8

example : atoi (ascii " -120$\n") = -120 := by decide

example : decimal (-2147483626) = ascii "-2147483626" := by decide

end C
