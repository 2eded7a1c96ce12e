import EmbeddedOS.FinalProject.Server
import EmbeddedOS.Library.Ascii
import EmbeddedOS.Library.Decimal

open C Text

namespace Parking

-- The variables of one iteration of the accept loop. The two arrays are not initialised.
structure Vars where
  method   : List UInt8
  entryNum : ℤ
  plate    : List UInt8

-- `recv` puts at most 256 bytes into the zeroed `ipBuf`.
def received (bytes : List UInt8) : List UInt8 :=
  overlay (bytes.take 256) (.replicate 256 0)

-- `%[^!]` and `%s` store what they have read with a NUL behind it. There is no result where this
-- would be written over the end of the array.
def store? (text array : List UInt8) : Option (List UInt8) :=
  if text.length < array.length then some (sprintf array text) else none

-- `strcmp(array, text) == 0`
def equals (array : List UInt8) (text : String) : Bool :=
  string? array = some (ascii text)

def Plate.ofArray? (array : List UInt8) : Option Plate :=
  (string? array).bind fun chars =>
    if h : chars ≠ [] ∧ chars.length ≤ 7 ∧ 0 ∉ chars
    then some ⟨chars, h.left, h.right.left, h.right.right⟩
    else none

-- What the child does behind `sscanf`: it exits at once, or it serves a request. `stray` is a call
-- with an array that holds no plate: nothing at all, or no NUL.
inductive Dispatch
  | exit
  | request (r : Request)
  | stray

def Dispatch.call (request : Plate → Request) (array : List UInt8) : Dispatch :=
  (Plate.ofArray? array).elim .stray (.request <| request ·)

namespace Vars

variable (v : Vars)

-- `sscanf(ipBuf, "%[^!]!%d!%s", method, &entry_num, plate)`, which stops at what does not match.
-- Here are its parts from the last to the first: `!%s`, `%d!%s` and the whole.
def scanPlate? : List UInt8 → Option Vars
  | 33 :: text =>
    match scanWord text with
    | some (word, _) => (store? word v.plate).map fun plate => { v with plate }
    | none           => some v
  | _ => some v

def scanNumber? (text : List UInt8) : Option Vars :=
  match scanInt text with
  | some entryNum => { v with entryNum }.scanPlate? (behindNumber text)
  | none          => some v

def sscanf? (text : List UInt8) : Option Vars :=
  let word := text.takeWhile (· ≠ 33)
  if word = [] then
    some v
  else
    (store? word v.method).bind fun method =>
      match text.drop word.length with
      | _ :: text => { v with method }.scanNumber? text
      | []        => some { v with method }

-- There is no result either where `sscanf` reads over the end of `ipBuf`.
def scan? (bytes : List UInt8) : Option Vars :=
  (string? (received bytes)).bind v.sscanf?

def dispatch : Dispatch :=
  if equals v.method "Entry" then .call (.entry v.entryNum) v.plate
  else if equals v.method "Exit" then .call .exit v.plate
  else if equals v.method "Pay" then .call .pay v.plate
  else .exit

end Vars

-- The variables before `sscanf`, for what the stack holds in the place of the two arrays.
def Vars.fresh (method plate : List UInt8) : Vars where
  method
  entryNum := 0
  plate

-- The classes of characters that the camera text is filtered by. All that is known of them are the
-- ASCII characters, and that a blank is no digit.
structure Classes where
  isalpha : Char → Bool
  isdigit : Char → Bool
  isalpha_ascii : ∀ c, c.toNat < 128 → isalpha c = c.isAlpha
  isdigit_ascii : ∀ c, c.toNat < 128 → isdigit c = c.isDigit
  isdigit_space : ∀ c, isdigit c → Text.isspace c = false

-- `len(txt)==8 and txt[0:3].isalpha() and txt[4:7].isdigit()`
def Classes.accepts (k : Classes) (txt : List Char) : Bool :=
  txt.length = 8 && (txt.take 3).all k.isalpha && ((txt.drop 4).take 3).all k.isdigit

-- The name of a window is the number of its gate.
def windowsName (n : ℤ) : List Char :=
  chars (decimal n)

example : [1, 2, 3, 4].map windowsName = [['1'], ['2'], ['3'], ['4']] := by decide

-- The request of `process_camera` and the request of `PAY`.
def cameraMethod (windowsName : List Char) : String :=
  if windowsName = "1".toList ∨ windowsName = "2".toList then "Entry" else "Exit"

def cameraOutput (windowsName txt : List Char) : List Char :=
  (cameraMethod windowsName).toList ++ "!".toList ++ windowsName ++ "!".toList ++ txt

def payOutput (txt : List Char) : List Char :=
  "Pay!0!".toList ++ txt

end Parking
