import EmbeddedOS.Library.CString

namespace Parking

-- The pins that the LEDs of the slots are connected to.
def gpioList : List ℕ :=
  [26, 19, 13, 6, 17, 4, 3, 2, 1, 7, 8, 25, 23, 18, 15, 14]

-- The driver's write handler: the first byte of `rec_buf[2]` selects the pin, the second one is its
-- value. An index outside of `gpio_list` or a longer message has no defined effect.
def etxWrite (pins : ℕ → ℤ) (buf : List UInt8) : Option (ℕ → ℤ) :=
  match C.overlay buf [0, 0] with
  | [index, value] => gpioList[index.toNat]?.map (Function.update pins · value.toNat)
  | _              => none

def gpio (i : Fin 16) : ℕ :=
  gpioList.get i

theorem gpio_injective : ∀ {i j : Fin 16}, gpio i = gpio j → i = j := by
  decide

theorem getElem?_gpioList (i : Fin 16) : gpioList[i.val.toUInt8.toNat]? = some (gpio i) := by
  decide +revert

theorem etxWrite_eq (pins : ℕ → ℤ) (i : Fin 16) (value : UInt8) :
    etxWrite pins [i.val.toUInt8, value] = some (Function.update pins (gpio i) value.toNat) := by
  have h : C.overlay [i.val.toUInt8, value] [0, 0] = [i.val.toUInt8, value] := rfl
  simp only [etxWrite, h, getElem?_gpioList, Option.map_some]

end Parking
