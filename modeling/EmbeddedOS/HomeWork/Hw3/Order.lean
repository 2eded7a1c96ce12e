import EmbeddedOS.Library.CString

open C

namespace Delivery

inductive Shop
  | dessert
  | beverage
  | diner
deriving DecidableEq

-- The two items of a shop, as `order_num` counts them.
inductive Item
  | first
  | second
deriving DecidableEq

namespace Shop

-- The value of `flag` for the orders of a shop: its distance.
def flag : Shop → ℤ
  | dessert  => 3
  | beverage => 5
  | diner    => 8

def itemName : Shop → Item → List UInt8
  | dessert,  .first  => ascii "cookie"
  | dessert,  .second => ascii "cake"
  | beverage, .first  => ascii "tea"
  | beverage, .second => ascii "boba"
  | diner,    .first  => ascii "fried-rice"
  | diner,    .second => ascii "Egg-drop-soup"

def itemPrice : Shop → Item → ℤ
  | dessert,  .first  => 60
  | dessert,  .second => 80
  | beverage, .first  => 40
  | beverage, .second => 70
  | diner,    .first  => 120
  | diner,    .second => 50

end Shop

def items : List (Shop × Item) :=
  [(.dessert, .first), (.dessert, .second), (.beverage, .first), (.beverage, .second),
    (.diner, .first), (.diner, .second)]

-- The shop and the item that the comparisons with `item_check` find.
def item? (itemCheck : List UInt8) : Option (Shop × Item) :=
  items.find? fun (shop, i) => shop.itemName i = itemCheck

-- `sscanf(receive, "%s %s %d\n", order_check, item_check, &num_check)` into cleared variables.
structure Scanned where
  orderCheck : List UInt8
  itemCheck  : List UInt8
  numCheck   : ℤ

def scanOrder (receive : List UInt8) : Scanned :=
  match scanWord receive with
  | none => { orderCheck := [], itemCheck := [], numCheck := 0 }
  | some (orderCheck, rest) =>
    match scanWord rest with
    | none => { orderCheck, itemCheck := [], numCheck := 0 }
    | some (itemCheck, rest) => { orderCheck, itemCheck, numCheck := (scanInt rest).getD 0 }

-- The words fit into `order_check[20]` and `item_check[20]`.
def Scanned.fits (s : Scanned) : Bool :=
  s.orderCheck.length < 20 && s.itemCheck.length < 20

-- The locals of a session that its orders change.
structure Book where
  orderNum  : Item → ℤ
  orderTemp : List UInt8
  flag      : ℤ
  price     : ℤ

namespace Book

def initial : Book where
  orderNum _ := 0
  orderTemp  := .replicate 256 0
  flag       := 0
  price      := 0

-- The text that lists the items which have been ordered.
def listing (shop : Shop) (orderNum : Item → ℤ) : List UInt8 :=
  (if orderNum .first ≠ 0 then
    shop.itemName .first ++ ascii " " ++ decimal (orderNum .first) ++
      (if orderNum .second ≠ 0 then ascii "|" else [])
  else []) ++
  (if orderNum .second ≠ 0 then
    shop.itemName .second ++ ascii " " ++ decimal (orderNum .second)
  else []) ++
  ascii "\n"

-- An order of an item of the shop that the session has chosen.
def accept (b : Book) (shop : Shop) (item : Item) (numCheck : ℤ) : Book :=
  let orderNum := Function.update b.orderNum item (C.int (b.orderNum item + numCheck))
  { orderNum
    orderTemp := sprintf b.orderTemp (listing shop orderNum)
    flag      := shop.flag
    price     :=
      C.int (shop.itemPrice .first * orderNum .first + shop.itemPrice .second * orderNum .second) }

-- The branch for `order`: the first item of a session chooses the shop, an unknown item or an item
-- of another shop changes nothing.
def order (b : Book) (itemCheck : List UInt8) (numCheck : ℤ) : Option Book :=
  match item? itemCheck with
  | some (shop, item) =>
    if b.flag = 0 ∨ b.flag = shop.flag then some <| b.accept shop item numCheck else none
  | none => none

end Book
end Delivery
