import EmbeddedOS.Library.CString
import EmbeddedOS.Library.Text

open C

namespace Text

variable {as bs : List UInt8} {cs : List Char}

-- The characters of a record of ASCII bytes.
def chars (bs : List UInt8) : List Char :=
  bs.map fun b => Char.ofNat b.toNat

theorem utf8_of_lt (h : ∀ c ∈ cs, c.toNat < 128) : utf8 cs = cs.map fun c => c.toNat.toUInt8 := by
  induction cs
  case nil => rfl
  case cons c cs hi =>
    rw [List.forall_mem_cons] at h
    rw [utf8_cons, utf8EncodeChar_of_lt h.left, hi h.right, List.map_cons, List.singleton_append]

theorem utf8_toList {s : String} (h : ∀ c ∈ s.toList, c.toNat < 128) : utf8 s.toList = ascii s :=
  utf8_of_lt h

theorem decode_chars (h : ∀ b ∈ bs, b.toNat < 128) : decode bs = some (chars bs) :=
  decode_eq_some.mpr <| utf8_ofNat h

theorem chars_append : chars (as ++ bs) = chars as ++ chars bs :=
  List.map_append

theorem toNat_ofNat_byte (b : UInt8) : (Char.ofNat b.toNat).toNat = b.toNat := by
  have hb := b.toNat_lt
  rw [Char.toNat_ofNat, if_pos (.inl (by omega))]

theorem mem_chars {c : Char} (h : c ∈ chars bs) : ∃ b ∈ bs, b.toNat = c.toNat := by
  obtain ⟨b, hb, rfl⟩ := List.mem_map.mp h
  exact ⟨b, hb, (toNat_ofNat_byte b).symm⟩

-- A byte that stands in one part of a text only leads an infix into the byte behind this part.
theorem not_infix {α : Type*} {w : α} {ws as ps bs : List α} {b : α} (ha : w ∉ as) (hb : w ∉ bs)
    (hw : b ≠ w) (hn : b ∉ ws) (hl : ps.length ≤ ws.length) :
    ¬w :: ws <:+: as ++ ps ++ b :: bs := by
  rintro ⟨xs, ys, h⟩
  have hx : (as ++ ps ++ b :: bs)[xs.length]? = some w := by
    rw [← h, List.append_assoc, List.getElem?_append_right le_rfl, Nat.sub_self]
    rfl
  have h₁ : as.length ≤ xs.length := by
    by_contra hc
    rw [List.append_assoc, List.getElem?_append_left (by omega)] at hx
    exact ha <| List.mem_of_getElem? hx
  have h₂ : xs.length < as.length + ps.length := by
    by_contra hc
    rw [List.getElem?_append_right (by simp; omega)] at hx
    have hm := List.mem_of_getElem? hx
    rcases List.mem_cons.mp hm with hm | hm
    case inl => exact hw hm.symm
    case inr => exact hb hm
  have hy : (xs ++ w :: ws ++ ys)[as.length + ps.length]? = some b := by
    rw [h, List.getElem?_append_right (by simp)]
    simp
  obtain ⟨k, hk⟩ : ∃ k, as.length + ps.length = xs.length + (k + 1) :=
    ⟨as.length + ps.length - xs.length - 1, by omega⟩
  rw [hk, List.append_assoc, List.getElem?_append_right (by omega), Nat.add_sub_cancel_left,
    List.cons_append, List.getElem?_cons_succ, List.getElem?_append_left (by omega)] at hy
  exact hn <| List.mem_of_getElem? hy

end Text
