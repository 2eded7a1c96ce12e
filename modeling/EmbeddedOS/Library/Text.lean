import Mathlib

-- The strings of Python: sequences of Unicode characters.
namespace Text

-- `bytes(text, "utf8")`
def utf8 (cs : List Char) : List UInt8 :=
  cs.flatMap String.utf8EncodeChar

-- `str(bytes, encoding="utf-8")`, which raises an exception when the bytes are no UTF-8.
def decode (bs : List UInt8) : Option (List Char) :=
  bs.toByteArray.utf8Decode?.map Array.toList

variable {c : Char} {cs ds : List Char} {bs : List UInt8}

@[simp]
theorem utf8_nil : utf8 [] = [] := rfl

@[simp]
theorem utf8_cons : utf8 (c :: cs) = String.utf8EncodeChar c ++ utf8 cs := rfl

@[simp]
theorem utf8_append : utf8 (cs ++ ds) = utf8 cs ++ utf8 ds :=
  List.flatMap_append

theorem decode_utf8 (cs : List Char) : decode (utf8 cs) = some cs := by
  have h : (utf8 cs).toByteArray = cs.utf8Encode := rfl
  rw [decode, h, List.utf8Decode?_utf8Encode, Option.map_some]

theorem utf8_injective (h : utf8 cs = utf8 ds) : cs = ds :=
  Option.some.inj <| by rw [← decode_utf8 cs, h, decode_utf8]

theorem toByteArray_injective {as bs : List UInt8} (h : as.toByteArray = bs.toByteArray) :
    as = bs := by
  simpa using congrArg (fun b => b.data.toList) h

theorem decode_eq_some : decode bs = some cs ↔ utf8 cs = bs := by
  constructor
  case mpr => exact fun h => h ▸ decode_utf8 cs
  case mp =>
    intro h
    obtain ⟨a, ha, rfl⟩ := Option.map_eq_some_iff.mp h
    have hs : bs.toByteArray.utf8Decode?.isSome := by simp [ha]
    have hb := ByteArray.utf8Encode_get_utf8Decode? (h := hs)
    simp only [ha, Option.get_some] at hb
    exact toByteArray_injective hb

-- A character is one byte below 128, or it consists of bytes from 128 on.
theorem utf8EncodeChar_cases (c : Char) :
    (c.toNat < 128 ∧ String.utf8EncodeChar c = [c.toNat.toUInt8]) ∨
      (128 ≤ c.toNat ∧ 2 ≤ (String.utf8EncodeChar c).length ∧
        ∀ b ∈ String.utf8EncodeChar c, 128 ≤ b.toNat) := by
  by_cases h : c.toNat ≤ 127
  case pos => exact .inl ⟨by omega, by simp [String.utf8EncodeChar, h, Nat.toUInt8]⟩
  case neg =>
    refine .inr ⟨by omega, ?_⟩
    simp only [String.utf8EncodeChar, Char.toNat_val, h, if_false]
    split
    case isTrue => simp; omega
    case isFalse =>
      split
      case isTrue  => simp; omega
      case isFalse => simp; omega

theorem utf8EncodeChar_of_lt (h : c.toNat < 128) : String.utf8EncodeChar c = [c.toNat.toUInt8] := by
  rcases utf8EncodeChar_cases c with ⟨_, h⟩ | ⟨hc, _⟩
  case inl => exact h
  case inr => omega

-- Below 128, the bytes are the characters.
theorem utf8_ofNat (h : ∀ b ∈ bs, b.toNat < 128) :
    utf8 (bs.map fun b => Char.ofNat b.toNat) = bs := by
  induction bs
  case nil => rfl
  case cons b bs hi =>
    rw [List.forall_mem_cons] at h
    have hv : b.toNat.isValidChar := .inl (by omega)
    have hb : (Char.ofNat b.toNat).toNat = b.toNat := by rw [Char.toNat_ofNat, if_pos hv]
    rw [List.map_cons, utf8_cons, hi h.right, utf8EncodeChar_of_lt (by omega), hb]
    simp [Nat.toUInt8]

theorem toNat_injective {c d : Char} (h : c.toNat = d.toNat) : c = d :=
  Char.ext <| UInt32.toNat_inj.mp h

-- A text of such characters stands in the characters wherever it stands in the bytes.
theorem prefix_of_utf8 (hd : ∀ c ∈ ds, c.toNat < 128) (h : utf8 ds <+: utf8 cs) : ds <+: cs := by
  induction ds generalizing cs
  case nil => exact List.nil_prefix
  case cons d ds hi =>
    rw [List.forall_mem_cons] at hd
    rw [utf8_cons, utf8EncodeChar_of_lt hd.left] at h
    cases cs
    case nil => simp at h
    case cons c cs =>
      rw [utf8_cons] at h
      rcases utf8EncodeChar_cases c with ⟨hc, he⟩ | ⟨-, hl, he⟩
      case inl =>
        rw [he, List.singleton_append, List.singleton_append, List.cons_prefix_cons] at h
        have hcd : d = c := toNat_injective <| by
          have := congrArg UInt8.toNat h.left
          simp [Nat.toUInt8] at this
          omega
        rw [hcd, List.cons_prefix_cons]
        exact ⟨rfl, hi hd.right h.right⟩
      case inr =>
        obtain ⟨b, bs, hb⟩ :=
          List.exists_cons_of_length_pos (by omega : 0 < (String.utf8EncodeChar c).length)
        rw [hb, List.singleton_append, List.cons_append, List.cons_prefix_cons] at h
        have := he b (hb ▸ List.mem_cons_self)
        simp [← h.left, Nat.toUInt8] at this
        omega

theorem infix_of_utf8 (hd : ∀ c ∈ ds, c.toNat < 128) (h : utf8 ds <:+: utf8 cs) : ds <:+: cs := by
  obtain ⟨as, bs, h⟩ := h
  rw [List.append_assoc] at h
  induction cs generalizing as
  case nil =>
    have hn : utf8 ds = [] := by simp_all
    have := utf8_injective (hn.trans utf8_nil.symm)
    exact this ▸ List.infix_rfl
  case cons c cs hi =>
    rw [utf8_cons, List.append_eq_append_iff] at h
    rcases h with ⟨l, hl, hx⟩ | ⟨l, hl, hx⟩
    case inr => exact (hi l hx.symm).trans (List.suffix_cons _ _).isInfix
    case inl =>
      cases as
      case nil =>
        have hp : utf8 ds <+: utf8 (c :: cs) := ⟨bs, by rw [utf8_cons, hl, hx, List.nil_append]⟩
        exact (prefix_of_utf8 hd hp).isInfix
      case cons a as =>
        cases l
        case nil =>
          have hp : utf8 ds <+: utf8 cs := ⟨bs, hx⟩
          exact (prefix_of_utf8 hd hp).isInfix.trans (List.suffix_cons _ _).isInfix
        case cons b l =>
          cases ds
          case nil => exact List.nil_infix
          case cons d ds =>
            -- The text would start inside of a character.
            rw [List.forall_mem_cons] at hd
            rw [utf8_cons, utf8EncodeChar_of_lt hd.left, List.singleton_append, List.cons_append,
              List.cons_append, List.cons.injEq] at hx
            rcases utf8EncodeChar_cases c with ⟨-, he⟩ | ⟨-, -, he⟩
            case inl => simp [he] at hl
            case inr =>
              have := he b (hl ▸ List.mem_append_right _ List.mem_cons_self)
              simp [← hx.left, Nat.toUInt8] at this
              omega

theorem length_le_utf8 (cs : List Char) : cs.length ≤ (utf8 cs).length := by
  induction cs
  case nil => rfl
  case cons c cs hi =>
    have := c.utf8Size_pos
    simp only [utf8_cons, List.length_append, List.length_cons, String.length_utf8EncodeChar]
    omega

theorem utf8_length_le (cs : List Char) : (utf8 cs).length ≤ 4 * cs.length := by
  induction cs
  case nil => rfl
  case cons c cs hi =>
    have := c.utf8Size_le_four
    simp only [utf8_cons, List.length_append, List.length_cons, String.length_utf8EncodeChar]
    omega

-- Bytes that are no more than the characters are these characters.
theorem lt_of_utf8_length_le (h : (utf8 cs).length ≤ cs.length) : ∀ c ∈ cs, c.toNat < 128 := by
  induction cs
  case nil => simp
  case cons c cs hi =>
    have hl := length_le_utf8 cs
    simp only [utf8_cons, List.length_append, List.length_cons] at h
    rcases utf8EncodeChar_cases c with ⟨hc, he⟩ | ⟨-, hc, -⟩
    case inl =>
      rw [he, List.length_singleton] at h
      exact List.forall_mem_cons.mpr ⟨hc, hi (by omega)⟩
    case inr => omega

-- `str.isspace()`
def isspace (c : Char) : Bool :=
  (9 ≤ c.toNat && c.toNat ≤ 13) || (28 ≤ c.toNat && c.toNat ≤ 32) || c.toNat = 0x85 ||
    c.toNat = 0xa0 || c.toNat = 0x1680 || (0x2000 ≤ c.toNat && c.toNat ≤ 0x200a) ||
    c.toNat = 0x2028 || c.toNat = 0x2029 || c.toNat = 0x202f || c.toNat = 0x205f || c.toNat = 0x3000

def rstrip (cs : List Char) : List Char :=
  cs.rdropWhile isspace

def strip (cs : List Char) : List Char :=
  rstrip <| cs.dropWhile isspace

-- What stands in front of the first occurrence of a text and what stands behind it, if it occurs.
def cut? (sep : List Char) : List Char → Option (List Char × List Char)
  | [] => if sep = [] then some ([], []) else none
  | c :: cs =>
    if sep.isPrefixOf (c :: cs)
    then some ([], (c :: cs).drop sep.length)
    else (cut? sep cs).map fun (as, bs) => (c :: as, bs)

-- `text.split(sep)[1]`
def split? (sep cs : List Char) : Option (List Char) :=
  (cut? sep cs).map fun (_, rest) => ((cut? sep rest).map Prod.fst).getD rest

-- `sep in text`
def contains (sep cs : List Char) : Bool :=
  (cut? sep cs).isSome

theorem contains_iff {sep : List Char} : contains sep cs ↔ sep <:+: cs := by
  unfold contains
  induction cs
  case nil => simp [cut?]
  case cons c cs hi =>
    rw [cut?, List.infix_cons_iff, ← List.isPrefixOf_iff_prefix]
    split
    case isTrue h  => simp [h]
    case isFalse h => simp [h, hi]

theorem cut?_append {sep : List Char} (h : sep ≠ []) : cut? sep (sep ++ cs) = some ([], cs) := by
  obtain ⟨d, sep, rfl⟩ := List.exists_cons_of_ne_nil h
  have hp : (d :: sep).isPrefixOf (d :: sep ++ cs) :=
    List.isPrefixOf_iff_prefix.mpr (List.prefix_append _ _)
  rw [List.cons_append] at hp ⊢
  rw [cut?, if_pos hp, ← List.cons_append, List.drop_left]

theorem cut?_eq_none {sep : List Char} (hs : c ∈ sep) (hc : c ∉ cs) : cut? sep cs = none := by
  have hn : ¬contains sep cs := fun h => hc <| (contains_iff.mp h).subset hs
  simpa [contains] using hn

-- What stands behind the only occurrence of a text.
theorem split?_append {sep : List Char} (hs : c ∈ sep) (hc : c ∉ cs) :
    split? sep (sep ++ cs) = some cs := by
  simp [split?, cut?_append (List.ne_nil_of_mem hs), cut?_eq_none hs hc]

theorem strip_eq_self (h₁ : ∀ c ∈ cs.head?, isspace c = false)
    (h₂ : ∀ c ∈ cs.getLast?, isspace c = false) : strip cs = cs := by
  cases cs
  case nil => rfl
  case cons c cs =>
    rw [strip, List.dropWhile_cons_of_neg (by simp [h₁ c rfl]), rstrip,
      List.rdropWhile_eq_self_iff]
    intro hl
    simp [h₂ _ (List.getLast?_eq_getLast_of_ne_nil hl)]

end Text
