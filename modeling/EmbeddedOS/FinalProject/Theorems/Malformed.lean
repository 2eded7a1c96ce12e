import EmbeddedOS.FinalProject.Theorems.Allocation
import EmbeddedOS.FinalProject.Wire
import EmbeddedOS.Library.Scan

open C

namespace Parking

-- The parts of a text `method!integer!plate`: the integer as `%d` takes it, and in front of the
-- plate and behind it the blanks that `%s` looks for.
structure Fields (text : List UInt8) where
  method      : List UInt8
  number      : List UInt8
  blanks      : List UInt8
  plate       : List UInt8
  rest        : List UInt8
  entryNum    : ℤ
  text_eq     : text = method ++ 33 :: (number ++ 33 :: (blanks ++ plate ++ rest))
  method_ne   : method ≠ []
  method_free : 33 ∉ method
  number_eq   : scanInt number = some entryNum
  number_all  : behindNumber number = []
  blanks_all  : ∀ c ∈ blanks, isspace c
  plate_ne    : plate ≠ []
  plate_free  : ∀ c ∈ plate, isspace c = false
  rest_head   : ∀ c ∈ rest.head?, isspace c

-- What the child does changes no field of the car park, however it goes on.
def Dispatch.Harmless : Dispatch → Prop
  | exit      => True
  | request r => ∀ (m : Memory) (pid : ℕ) (s : Memory × Child)
    (_ : (Pool.alone server pid).Run (m, fork r) s), m.Untouched s.fst
  | stray     => False

-- The variables hold these parts of the text.
structure Vars.Hold (v : Vars) {text : List UInt8} (f : Fields text) : Prop where
  method   : f.method.length ≤ 7 ∧ string? v.method = some f.method
  entryNum : v.entryNum = f.entryNum
  plate    : f.plate.length ≤ 7 ∧ string? v.plate = some f.plate

-- What `main` does with a message, whatever is in its uninitialised arrays: it reads and writes
-- nothing outside of its arrays, and the message is a request that is served as it is, or nothing
-- happens.
def Serves (bytes : List UInt8) : Prop :=
  ∃ text, string? (received bytes) = some text ∧
    ∀ method plate : List UInt8, method.length = 8 → plate.length = 8 →
      ∃ v, (Vars.fresh method plate).scan? bytes = some v ∧
        ((∃ f : Fields text, v.Hold f) ∨ v.dispatch.Harmless)

def methods : List (List UInt8) :=
  [ascii "Entry", ascii "Exit", ascii "Pay"]

-- The messages that this works for: they end within `ipBuf`, their method and their plate fit into
-- the arrays, and what has one of the three methods has the other parts of a request.
def Regular (bytes : List UInt8) : Prop :=
  ∃ text, string? (received bytes) = some text ∧
    text.takeWhile (· ≠ 33) ≠ [] ∧ (text.takeWhile (· ≠ 33)).length ≤ 7 ∧
    (∀ f : Fields text, f.plate.length ≤ 7) ∧
    (text.takeWhile (· ≠ 33) ∈ methods → Nonempty (Fields text))

variable {v v' : Vars} {text array word bytes : List UInt8} {n : ℤ} {pid : ℕ} {r : Request}

theorem Fields.takeWhile_eq (f : Fields text) : text.takeWhile (· ≠ 33) = f.method := by
  have hm : ∀ c ∈ f.method, decide (c ≠ 33) = true :=
    fun c hc => decide_eq_true <| ne_of_mem_of_not_mem hc f.method_free
  conv_lhs => rw [f.text_eq, List.takeWhile_append_of_pos hm]
  simp

theorem Fields.scanWord_eq (f : Fields text) :
    scanWord (f.blanks ++ f.plate ++ f.rest) = some (f.plate, f.rest) :=
  scanWord_eq_some.mpr ⟨_, rfl, f.blanks_all, f.plate_ne, f.plate_free, f.rest_head⟩

-- A text with all three parts is split into them.
theorem Fields.sscanf?_eq (f : Fields text) (v : Vars) :
    v.sscanf? text = (store? f.method v.method).bind fun method =>
      (store? f.plate v.plate).map fun plate => { method, entryNum := f.entryNum, plate } := by
  have hd : text.drop f.method.length = 33 :: (f.number ++ 33 :: (f.blanks ++ f.plate ++ f.rest)) :=
    (congrArg (List.drop _) f.text_eq).trans List.drop_left
  have hc : ∀ rest, ¬Continues f.number (33 :: rest) := by
    rintro rest ⟨c, hc, hd⟩
    cases Option.some.inj hc
    revert hd
    simp [isdigit, isspace]
  have hn : ∀ rest, scanInt (f.number ++ 33 :: rest) = some f.entryNum :=
    fun rest => (scanInt_append (.inr (hc rest))).trans f.number_eq
  have hb : ∀ rest, behindNumber (f.number ++ 33 :: rest) = 33 :: rest := by
    intro rest
    rw [behindNumber_append (dropWhile_ne_nil f.number_eq) f.number_all]
    rfl
  simp only [Vars.sscanf?, f.takeWhile_eq, f.method_ne, if_false, hd, Vars.scanNumber?, hn, hb,
    Vars.scanPlate?, f.scanWord_eq]

-- A text without all three parts leaves the plate as it is.
theorem sscanf?_of_isEmpty (hf : IsEmpty (Fields text)) (hw : text.takeWhile (· ≠ 33) ≠ [])
    (v : Vars) : ∃ n, v.sscanf? text = (store? (text.takeWhile (· ≠ 33)) v.method).map fun method =>
      { method, entryNum := n, plate := v.plate } := by
  have ht : text = text.takeWhile (· ≠ 33) ++ text.drop (text.takeWhile (· ≠ 33)).length := by
    rw [drop_takeWhile_length, List.takeWhile_append_dropWhile]
  simp only [Vars.sscanf?, hw, if_false]
  cases hd : text.drop (text.takeWhile (· ≠ 33)).length
  case nil => exact ⟨v.entryNum, Option.map_eq_bind.symm⟩
  case cons c cs =>
    have hc : c = 33 := by
      have hc : c ∈ (text.dropWhile (· ≠ 33)).head? := by rw [← drop_takeWhile_length, hd]; rfl
      simpa using head_dropWhile hc
    subst hc
    cases hn : scanInt cs
    case none =>
      simp only [Vars.scanNumber?, hn]
      exact ⟨v.entryNum, Option.map_eq_bind.symm⟩
    case some n =>
      refine ⟨n, ?_⟩
      simp only [Vars.scanNumber?, hn, Vars.scanPlate?]
      split
      case h_2 => exact Option.map_eq_bind.symm
      case h_1 rest hb =>
        cases hs : scanWord rest
        case none => exact Option.map_eq_bind.symm
        case some p =>
          obtain ⟨plate, rest'⟩ := p
          obtain ⟨number, hnum, hnum', hall⟩ := exists_number hn
          obtain ⟨blanks, hrest, hblanks, hne, hfree, hhead⟩ := scanWord_eq_some.mp hs
          refine hf.elim
            { method := text.takeWhile (· ≠ 33), number, blanks, plate, rest := rest', entryNum := n
              text_eq := ?_, method_ne := hw, method_free := ?_, number_eq := hnum'
              number_all := hall, blanks_all := hblanks, plate_ne := hne, plate_free := hfree
              rest_head := hhead }
          case refine_1 =>
            rw [hb, hrest] at hnum
            rw [hd, hnum] at ht
            exact ht
          case refine_2 =>
            intro h
            exact absurd (List.mem_takeWhile_imp h) (by simp)

theorem Dispatch.not_harmless {m : Memory} (pid : ℕ) (h : ¬m.Untouched (m.handle pid r).fst) :
    ¬(request r).Harmless := by
  intro hh
  obtain ⟨e⟩ := Pool.exists_run_of_settle (P := server) pid .run 9 m (fork r)
  exact h <| hh m pid _ e

-- A car in this slot that has paid.
def Memory.paidUp (i : Slot) : Memory :=
  ((Memory.initial 1).park 0 .a i).setPay i 1

-- Each of the three functions does something for a plate that no client has sent.
theorem Dispatch.not_harmless_entry (n : ℤ) : ¬(request <| .entry n .a).Harmless := by
  apply not_harmless (m := .initial 1) 1
  cases hf : (Memory.initial 1).freeSlot .a n
  case none =>
    exact absurd (Memory.freeSlot_eq_none.mp hf 8 rfl) (by simp [Memory.initial])
  case some i =>
    rw [Memory.handle_entry_park (by decide) (by decide) hf]
    intro h
    have := congrFun h.parkSpace i
    simp [Memory.initial] at this

theorem Dispatch.not_harmless_exit : ¬(request <| .exit .a).Harmless := by
  have hl : (Memory.paidUp 8).lookup .a = some 8 := by decide
  apply not_harmless (m := .paidUp 8) 1
  rw [Memory.handle_exit_free (z := 0) hl (by decide) (by decide) (by decide) (by decide)]
  intro h
  have := congrFun h.parkSpace 8
  simp [Memory.paidUp] at this

theorem Dispatch.not_harmless_pay : ¬(request <| .pay .a).Harmless := by
  have hl : ((Memory.initial 1).park 0 .a 8).lookup .a = some 8 := by decide
  apply not_harmless (m := (Memory.initial 1).park 0 .a 8) 1
  rw [Memory.handle_pay_found hl (by decide)]
  intro h
  have := congrArg Car.payT <| congrFun h.car 8
  simp [Memory.initial] at this

-- What the arrays can hold before anything is written to them.
def leftover (text : String) : List UInt8 :=
  sprintf (.replicate 8 0) (ascii text)

theorem dispatch_leftover (h : string? v.method = some word) (hm : word ∈ methods)
    (hp : v.plate = leftover "A") : ¬v.dispatch.Harmless := by
  have ha : Plate.ofArray? (leftover "A") = some .a := by decide
  simp only [methods, List.mem_cons, List.not_mem_nil, or_false] at hm
  rcases hm with rfl | rfl | rfl
  case inl =>
    have hd : v.dispatch = .request (.entry v.entryNum .a) := by
      simp [Vars.dispatch, equals, h, Dispatch.call, hp, ha]
    exact hd ▸ Dispatch.not_harmless_entry _
  case inr.inl =>
    have h₁ : ascii "Exit" ≠ ascii "Entry" := by decide
    have hd : v.dispatch = .request (.exit .a) := by
      simp [Vars.dispatch, equals, h, Dispatch.call, hp, ha, h₁]
    exact hd ▸ Dispatch.not_harmless_exit
  case inr.inr =>
    have h₁ : ascii "Pay" ≠ ascii "Entry" := by decide
    have h₂ : ascii "Pay" ≠ ascii "Exit" := by decide
    have hd : v.dispatch = .request (.pay .a) := by
      simp [Vars.dispatch, equals, h, Dispatch.call, hp, ha, h₁, h₂]
    exact hd ▸ Dispatch.not_harmless_pay

theorem dispatch_of_not_mem (h : string? v.method = some word) (hm : word ∉ methods) :
    v.dispatch = .exit := by
  simp only [methods, List.mem_cons, List.not_mem_nil, or_false, not_or] at hm
  simp [Vars.dispatch, equals, h, hm]

theorem store?_eq (hl : word.length ≤ 7) (ha : array.length = 8) :
    store? word array = some (sprintf array word) :=
  if_pos (by omega)

theorem store?_none (hl : ¬word.length ≤ 7) (ha : array.length = 8) : store? word array = none :=
  if_neg (by omega)

theorem string?_store (array : List UInt8) (h : string? (received bytes) = some text)
    (hw : word ⊆ text) :
    string? (sprintf array word) = some word :=
  string?_sprintf fun h₀ => zero_not_mem_string? h <| hw h₀

theorem scan?_eq (h : string? (received bytes) = some text) (v : Vars) :
    v.scan? bytes = v.sscanf? text := by
  rw [Vars.scan?, h, Option.bind_some]

theorem serves_of_regular (h : Regular bytes) : Serves bytes := by
  obtain ⟨text, ht, hw, hl, hp, hm⟩ := h
  refine ⟨text, ht, fun method plate h₁ h₂ => ?_⟩
  rw [scan?_eq ht]
  by_cases hf : Nonempty (Fields text)
  case pos =>
    obtain ⟨f⟩ := hf
    have hl := f.takeWhile_eq ▸ hl
    have hs₁ : f.method ⊆ text := f.takeWhile_eq ▸ List.takeWhile_subset _
    have hs₂ : f.plate ⊆ text := fun c hc => by rw [f.text_eq]; simp [hc]
    refine ⟨⟨sprintf method f.method, f.entryNum, sprintf plate f.plate⟩, ?_, .inl ⟨f, ?_, rfl, ?_⟩⟩
    case refine_1 =>
      rw [f.sscanf?_eq, Vars.fresh, store?_eq hl h₁, store?_eq (hp f) h₂, Option.bind_some,
        Option.map_some]
    case refine_2 => exact ⟨hl, string?_store _ ht hs₁⟩
    case refine_3 => exact ⟨hp f, string?_store _ ht hs₂⟩
  case neg =>
    obtain ⟨n, hn⟩ := sscanf?_of_isEmpty (not_nonempty_iff.mp hf) hw (.fresh method plate)
    rw [hn, Vars.fresh, store?_eq hl h₁, Option.map_some]
    have hs := string?_store method ht <| List.takeWhile_subset (· ≠ 33)
    refine ⟨_, rfl, .inr ?_⟩
    rw [dispatch_of_not_mem hs (mt hm hf)]
    trivial

theorem regular_of_serves (h : Serves bytes) : Regular bytes := by
  obtain ⟨text, ht, h⟩ := h
  have ha : (leftover "A").length = 8 := by decide
  have hw : text.takeWhile (· ≠ 33) ≠ [] := by
    intro hw
    obtain ⟨v, hv, hh⟩ := h (leftover "Entry") (leftover "A") (by decide) ha
    have hs : (Vars.fresh (leftover "Entry") (leftover "A")).sscanf? text = some v :=
      scan?_eq ht _ ▸ hv
    simp only [Vars.sscanf?, hw, if_true] at hs
    cases hs
    rcases hh with ⟨f, -⟩ | hh
    case inl => exact f.method_ne <| f.takeWhile_eq.symm.trans hw
    case inr =>
      have hs : string? (leftover "Entry") = some (ascii "Entry") := by decide
      exact dispatch_leftover hs (by decide) rfl hh
  have hl : (text.takeWhile (· ≠ 33)).length ≤ 7 := by
    by_contra hl
    obtain ⟨v, hv, -⟩ := h (leftover "") (leftover "A") (by decide) ha
    rw [scan?_eq ht, Vars.sscanf?] at hv
    simp only [if_neg hw, Vars.fresh, store?_none hl (by decide : (leftover "").length = 8)] at hv
    contradiction
  refine ⟨text, ht, hw, hl, fun f => ?_, fun hm => ?_⟩
  case refine_1 =>
    by_contra hp
    obtain ⟨v, hv, -⟩ := h (leftover "") (leftover "A") (by decide) ha
    rw [scan?_eq ht, f.sscanf?_eq, Vars.fresh, store?_none hp ha] at hv
    simp at hv
  case refine_2 =>
    by_contra hf
    have hf := not_nonempty_iff.mp hf
    obtain ⟨v, hv, hh⟩ := h (leftover "") (leftover "A") (by decide) ha
    obtain ⟨n, hn⟩ := sscanf?_of_isEmpty hf hw (.fresh (leftover "") (leftover "A"))
    rw [scan?_eq ht, hn, Vars.fresh, store?_eq hl (by decide), Option.map_some] at hv
    cases hv
    have hs := string?_store (leftover "") ht <| List.takeWhile_subset (· ≠ 33)
    rcases hh with ⟨f, -⟩ | hh
    case inl => exact hf.elim f
    case inr => exact dispatch_leftover hs hm rfl hh

-- A message does nothing unless it is a request exactly if it is regular.
theorem serves_iff (bytes : List UInt8) : Serves bytes ↔ Regular bytes :=
  ⟨regular_of_serves, serves_of_regular⟩

-- `Entry` without the rest: the request is served for the plate that the array has been left with.
theorem serves_broken : ¬ ∀ bytes : List UInt8, bytes.length ≤ 256 → Serves bytes := by
  intro h
  obtain ⟨text, ht, -, -, -, hm⟩ := regular_of_serves <| h (ascii "Entry") (by decide)
  have hs : string? (received (ascii "Entry")) = some (ascii "Entry") := by decide
  cases Option.some.inj <| hs.symm.trans ht
  obtain ⟨f⟩ := hm (by decide)
  have h₁ := congrArg List.length f.text_eq
  have h₂ := congrArg List.length f.takeWhile_eq
  simp [ascii] at h₁ h₂
  omega

end Parking
