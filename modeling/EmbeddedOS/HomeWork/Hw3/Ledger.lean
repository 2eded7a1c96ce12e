import EmbeddedOS.HomeWork.Hw3.Command

open C

namespace Delivery

-- The items that have been ordered, each with its number, and a newline.
def listed (shop : Shop) (orderNum : Item → ℤ) : List UInt8 :=
  let ordered := [Item.first, Item.second].filter (orderNum · ≠ 0)
  let entry item := shop.itemName item ++ ascii " " ++ decimal (orderNum item)
  (ascii "|").intercalate (ordered.map entry) ++ ascii "\n"

-- What the commands of a session, newest first, come to.
namespace Ledger

-- The shop of the first order that named a known item.
def shop? : List Command → Option Shop
  | [] => none
  | .order shop _ _ :: cs => (shop? cs).or (some shop)
  | _ :: cs => shop? cs

-- The sum of the quantities of the orders that named an item of a shop.
def total (shop : Shop) (item : Item) : List Command → ℤ
  | [] => 0
  | .order shop' item' n :: cs =>
    if shop' = shop ∧ item' = item then total shop item cs + n else total shop item cs
  | _ :: cs => total shop item cs

def flag (cs : List Command) : ℤ :=
  (shop? cs).elim 0 Shop.flag

def orderNum (cs : List Command) (item : Item) : ℤ :=
  (shop? cs).elim 0 fun shop => total shop item cs

def price (cs : List Command) : ℤ :=
  (shop? cs).elim 0 fun shop =>
    shop.itemPrice .first * total shop .first cs + shop.itemPrice .second * total shop .second cs

-- A command that orders a known item, and none of another shop than the first one.
def Accepts (cs : List Command) : Command → Prop
  | .order shop _ _ => ∀ first ∈ shop? cs, first = shop
  | _ => False

instance (cs : List Command) : (c : Command) → Decidable (Accepts cs c)
  | .order _ _ _ => inferInstanceAs <| Decidable (∀ _ ∈ _, _)
  | .leave | .yes | .shopList | .confirm | .refuse | .ignore | .fault => .isFalse id

-- The reply to the last order that was accepted.
def reply : List Command → List UInt8
  | [] => []
  | c :: cs =>
    if Accepts cs c
    then (shop? (c :: cs)).elim [] fun shop => listed shop (orderNum (c :: cs))
    else reply cs

section

variable {c : Command} {cs : List Command} {shop : Shop} {item : Item} {n : ℤ}

-- The first shop stays the shop of the session.
theorem shop?_cons (h : shop? cs = some shop) : shop? (c :: cs) = some shop := by
  cases c <;> simp [shop?, h]

theorem shop?_of_suffix {earlier : List Command} (h : earlier <:+ cs)
    (hs : shop? earlier = some shop) : shop? cs = some shop := by
  obtain ⟨later, rfl⟩ := h
  induction later
  case nil           => exact hs
  case cons c cs hi => exact shop?_cons hi

theorem total_eq_zero (h : shop? cs = none) (shop : Shop) (item : Item) :
    total shop item cs = 0 := by
  induction cs
  case nil          => rfl
  case cons c cs hi => cases c <;> simp_all [shop?, total]

-- A command that is not accepted leaves everything as it was.
theorem shop?_of_not_accepts (h : ¬Accepts cs c) : shop? (c :: cs) = shop? cs := by
  cases c
  case order shop' item' n =>
    cases hs : shop? cs
    case none      => simp [Accepts, hs] at h
    case some shop => exact shop?_cons hs
  all_goals rfl

theorem total_of_not_accepts (hs : shop? cs = some shop) (h : ¬Accepts cs c) :
    total shop item (c :: cs) = total shop item cs := by
  cases c
  case order shop' item' n =>
    have hne : shop' ≠ shop := by
      rintro rfl
      exact h <| by simp [Accepts, hs]
    simp [total, hne]
  all_goals rfl

theorem flag_of_not_accepts (h : ¬Accepts cs c) : flag (c :: cs) = flag cs := by
  rw [flag, shop?_of_not_accepts h, flag]

theorem orderNum_of_not_accepts (h : ¬Accepts cs c) : orderNum (c :: cs) = orderNum cs := by
  funext item
  rw [orderNum, shop?_of_not_accepts h, orderNum]
  cases hs : shop? cs
  case none      => rfl
  case some shop => exact total_of_not_accepts hs h

theorem price_of_not_accepts (h : ¬Accepts cs c) : price (c :: cs) = price cs := by
  rw [price, shop?_of_not_accepts h, price]
  cases hs : shop? cs
  case none      => rfl
  case some shop =>
    simp only [Option.elim_some, total_of_not_accepts hs h]

theorem reply_of_not_accepts (h : ¬Accepts cs c) : reply (c :: cs) = reply cs :=
  if_neg h

-- An accepted order adds its quantity, in the shop of the session.
theorem shop?_of_accepts (h : Accepts cs (.order shop item n)) :
    shop? (.order shop item n :: cs) = some shop := by
  cases hs : shop? cs
  case none       => simp [shop?, hs]
  case some first => rw [shop?_cons hs, h first hs]

theorem orderNum_eq_total (h : Accepts cs (.order shop item n)) (item : Item) :
    orderNum cs item = total shop item cs := by
  cases hs : shop? cs
  case none       => rw [orderNum, hs, total_eq_zero hs, Option.elim_none]
  case some first => rw [orderNum, hs, Option.elim_some, h first hs]

theorem orderNum_of_accepts (h : Accepts cs (.order shop item n)) :
    orderNum (.order shop item n :: cs) =
      Function.update (orderNum cs) item (orderNum cs item + n) := by
  funext item'
  rw [orderNum, shop?_of_accepts h, Option.elim_some, total]
  by_cases hi : item = item'
  case pos => simp [hi, orderNum_eq_total h]
  case neg => simp [hi, Ne.symm hi, orderNum_eq_total h]

theorem price_of_accepts (h : Accepts cs (.order shop item n)) :
    let orderNum := orderNum (.order shop item n :: cs)
    price (.order shop item n :: cs) =
      shop.itemPrice .first * orderNum .first + shop.itemPrice .second * orderNum .second := by
  simp only [price, orderNum, shop?_of_accepts h, Option.elim_some]

theorem reply_of_accepts (h : Accepts cs (.order shop item n)) :
    reply (.order shop item n :: cs) = listed shop (orderNum <| .order shop item n :: cs) := by
  rw [reply, if_pos h, shop?_of_accepts h, Option.elim_some]

end
end Ledger
end Delivery
