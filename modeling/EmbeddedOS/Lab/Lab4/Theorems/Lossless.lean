import EmbeddedOS.Lab.Lab4.Mydev

open C Fifo

namespace Mydev

-- The segments of a letter, and those of the blank.
def glyph (b : UInt8) : List UInt8 :=
  ascii (segForC.getD (b.toNat - 65) "")

def blank : List UInt8 :=
  ascii (segForC.getD 26 "")

-- What the calls of a history mean for a queue of letters.
def Event.op? : Event → Option (Op UInt8 (List UInt8))
  | wrote b  => if isLetter b then some (.push b) else none
  | read buf => some (.pop buf)

def ops (log : List Event) : List (Op UInt8 (List UInt8)) :=
  log.filterMap Event.op?

-- When a letter is written, fewer than 100 have been accepted since the last read that found the
-- queue empty.
def Bounded (s : State) (c : Call) : Prop :=
  ∀ b, c = .write b → isLetter b → fresh (ops s.log) < 100

-- The device is a lossless queue.
structure State.Lossless (s : State) : Prop where
  -- No call has left the arrays.
  running : s.device ≠ none
  -- What the reads returned while there were letters in the queue, and then the glyphs of those
  -- that are still there, are the glyphs of the accepted letters.
  inOrder : (pushed (ops s.log)).map glyph = served (ops s.log) ++ (pending (ops s.log)).map glyph
  -- The other reads returned the blank.
  blanks  : ∀ buf ∈ unserved (ops s.log), buf = blank
  -- Any other byte leaves the device as it is.
  ignores : ∀ b, ¬isLetter b → lab4.step s (.write b) = some { s with log := .wrote b :: s.log }

-- The queue of the letters lies in `temp` between the two counters, which are rewound when it is
-- empty and asked.
structure Device.Holds (d : Device) (h : List (Op UInt8 (List UInt8))) : Prop where
  output   : d.outputCount.toNat ≤ d.inputCount.toNat
  input    : d.inputCount.toNat = fresh h
  bound    : fresh h ≤ 100
  contents : contents d.temp.toList d.outputCount.toNat d.inputCount.toNat = pending h
  letters  : ∀ b ∈ pending h, isLetter b

variable {d d' : Device} {s s' : State} {c : Call} {b : UInt8} {h : List (Op UInt8 (List UInt8))}

theorem seg_length : ∀ text ∈ segForC, (ascii text).length = 16 := by
  decide

theorem seg?_eq {i : ℕ} (h : i < segForC.length) :
    seg? i = some (ascii (segForC.getD i "") ++ [0]) := by
  simp [seg?, List.getElem?_eq_getElem h]

-- A read of 16 bytes gets all of a literal but its NUL.
theorem copyToUser_seg {i : ℕ} (h : i < segForC.length) :
    copyToUser (ascii (segForC.getD i "") ++ [0]) 16 = some (ascii (segForC.getD i "")) := by
  have hl : (ascii (segForC.getD i "")).length = 16 := by
    rw [List.getD_eq_getElem _ _ h]
    exact seg_length _ <| List.getElem_mem h
  have hle : 16 ≤ (ascii (segForC.getD i "") ++ [0]).length := by
    rw [List.length_append, hl]
    decide
  rw [copyToUser, if_pos hle, List.take_append_of_le_length hl.ge, ← hl, List.take_length]

theorem letter_index (h : isLetter b) : 65 ≤ b.toNat ∧ b.toNat - 65 < segForC.length := by
  simp only [isLetter, Bool.and_eq_true, decide_eq_true_eq, UInt8.le_iff_toNat_le] at h
  have hl : segForC.length = 27 := rfl
  exact ⟨h.left, by have := h.right; simp at this; omega⟩

theorem succ_toNat {n : UInt8} (h : n.toNat < 255) : (n + 1).toNat = n.toNat + 1 := by
  rw [UInt8.toNat_add]
  simp
  omega

-- The byte that is written is all that `my_write` gets to see.
theorem Device.myWrite_other (h : ¬isLetter b) : d.myWrite [b] = some d := by
  simp [myWrite, overlay, h]

theorem Device.myWrite_letter (h : isLetter b) (hi : d.inputCount.toNat < 100) :
    d.myWrite [b] =
      some { d with temp := d.temp.set d.inputCount.toNat b, inputCount := d.inputCount + 1 } := by
  simp [myWrite, overlay, h, hi]

namespace Device.Holds

theorem initial : Device.initial.Holds [] where
  output   := le_rfl
  input    := rfl
  bound    := Nat.zero_le _
  contents := rfl
  letters  := nofun

theorem input_le_length (hd : d.Holds h) : d.inputCount.toNat ≤ d.temp.toList.length := by
  simpa [hd.input] using hd.bound

theorem pending_eq_nil_iff (hd : d.Holds h) :
    pending h = [] ↔ d.inputCount.toNat ≤ d.outputCount.toNat := by
  rw [← hd.contents, contents_eq_nil_iff hd.input_le_length]

theorem push (hd : d.Holds h) (hb : isLetter b) (hf : fresh h < 100) :
    ∃ d', d.myWrite [b] = some d' ∧ d'.Holds (.push b :: h) := by
  have hi : d.inputCount.toNat < 100 := hd.input ▸ hf
  have hs := succ_toNat (n := d.inputCount) (by omega)
  refine ⟨_, myWrite_letter hb hi, ?_⟩
  constructor
  case output => simpa only [hs] using hd.output.trans (Nat.le_succ _)
  case input  => rw [hs, hd.input, fresh]
  case bound  => exact hf
  case contents =>
    rw [hs, Vector.toList_set, contents_push hd.output (by simpa using hi), hd.contents, pending]
  case letters =>
    intro c hc
    rcases List.mem_append.mp hc with hc | hc
    case inl => exact hd.letters c hc
    case inr => exact List.mem_singleton.mp hc ▸ hb

-- A read of an empty queue finds the counters equal and rewinds them.
theorem popEmpty (hd : d.Holds h) (hp : pending h = []) :
    ∃ d', d.myRead 16 = some (blank, d') ∧ d'.Holds (.pop blank :: h) := by
  have hle := hd.pending_eq_nil_iff.mp hp
  have he : d.inputCount = d.outputCount := UInt8.toNat_inj.mp <| le_antisymm hle hd.output
  have hs : seg? 26 = some (blank ++ [0]) := seg?_eq (by decide)
  have hc : copyToUser (blank ++ [0]) 16 = some blank := copyToUser_seg (by decide)
  refine ⟨{ d with inputCount := 0, outputCount := 0 }, by simp [myRead, he, hs, hc], ?_⟩
  constructor
  case output   => exact le_rfl
  case input    => simp [fresh, hp]
  case bound    => simp [fresh, hp]
  case contents => simp [pending, hp, Fifo.contents]
  case letters  => simp [pending, hp]

theorem pop (hd : d.Holds h) {bs : List UInt8} (hp : pending h = b :: bs) :
    ∃ d', d.myRead 16 = some (glyph b, d') ∧ d'.Holds (.pop (glyph b) :: h) := by
  have hne : pending h ≠ [] := by simp [hp]
  have hlt : d.outputCount.toNat < d.inputCount.toNat := by
    simpa using hd.pending_eq_nil_iff.not.mp hne
  have hi := hd.input ▸ hd.bound
  have hs := succ_toNat (n := d.outputCount) (by omega)
  have hc := (contents_pop hlt hd.input_le_length).symm.trans <| hd.contents.trans hp
  have ⟨hb, hr⟩ := List.cons.inj hc
  have hget : d.temp[d.outputCount.toNat]? = some b := by
    rw [← Vector.getElem?_toList, List.getElem?_eq_getElem (by simp; omega)]
    exact congrArg some hb
  have ⟨hl, hl'⟩ := letter_index <| hd.letters b (by simp [hp])
  have hseg : seg? (b.toNat - 65) = some (glyph b ++ [0]) := by
    rw [← Nat.cast_ofNat, ← Nat.cast_sub hl]
    exact seg?_eq hl'
  have hcopy : copyToUser (glyph b ++ [0]) 16 = some (glyph b) := copyToUser_seg hl'
  refine ⟨{ d with outputCount := d.outputCount + 1 }, ?_, ?_⟩
  case refine_1 => simp [myRead, UInt8.lt_iff_toNat_lt, hlt, hget, hseg, hcopy]
  constructor
  case output   => rw [hs]; exact hlt
  case input    => simp [fresh, hne, hd.input]
  case bound    => simpa [fresh, hne] using hd.bound
  case contents => rw [hs, hr, pending, hp, List.tail_cons]
  case letters  => exact fun c hc => hd.letters c <| List.mem_of_mem_tail hc

-- Every read gets what the queue would answer.
theorem read (hd : d.Holds h) : ∃ buf d', d.myRead 16 = some (buf, d') ∧
    d'.Holds (.pop buf :: h) ∧ buf = ((pending h).head?.map glyph).getD blank := by
  cases hp : pending h
  case nil =>
    obtain ⟨d', hr, hh'⟩ := hd.popEmpty hp
    exact ⟨blank, d', hr, hh', rfl⟩
  case cons b bs =>
    obtain ⟨d', hr, hh'⟩ := hd.pop hp
    exact ⟨glyph b, d', hr, hh', rfl⟩

end Device.Holds

theorem ops_letter (hb : isLetter b) (log : List Event) :
    ops (.wrote b :: log) = .push b :: ops log := by
  simp [ops, Event.op?, hb]

theorem ops_other (hb : ¬isLetter b) (log : List Event) : ops (.wrote b :: log) = ops log := by
  simp [ops, Event.op?, hb]

-- The device is in use, and what has been read so far is what the queue would have answered.
structure State.Sound (s : State) : Prop where
  device  : ∃ d, s.device = some d ∧ d.Holds (ops s.log)
  answers : Answers glyph blank (ops s.log)

theorem State.Sound.ignores (hs : s.Sound) (hb : ¬isLetter b) :
    lab4.step s (.write b) = some { s with log := .wrote b :: s.log } := by
  obtain ⟨⟨d, hd, -⟩, -⟩ := hs
  simp [lab4, Mydev.step, hd, Device.myWrite_other hb]

theorem State.Sound.step (hs : s.Sound) (hc : Bounded s c) (h : lab4.step s c = some s') :
    s'.Sound := by
  have hi : ∀ b, ¬isLetter b → _ := fun _ => hs.ignores
  obtain ⟨⟨d, hd, hh⟩, ha⟩ := hs
  cases c
  case write b =>
    by_cases hb : isLetter b
    case pos =>
      obtain ⟨d', hw, hh'⟩ := hh.push hb <| hc b rfl hb
      cases (by simpa [lab4, Mydev.step, hd, hw] using h.symm : s' = _)
      have ho := ops_letter hb s.log
      exact ⟨⟨d', rfl, ho ▸ hh'⟩, by rw [ho]; exact ha⟩
    case neg =>
      cases Option.some.inj <| (hi b hb).symm.trans h
      have ho := ops_other hb s.log
      exact ⟨⟨d, hd, ho ▸ hh⟩, by rw [ho]; exact ha⟩
  case read =>
    obtain ⟨buf, d', hr, hh', hb⟩ := hh.read
    cases (by simpa [lab4, Mydev.step, hd, hr] using h.symm : s' = _)
    exact ⟨⟨d', rfl, hh'⟩, ha, hb⟩

-- As long as at most 100 letters are accepted between two reads that find the queue empty, and
-- before the first one, the device is a lossless queue.
theorem lossless (e : lab4.Run .initial s) (hc : e.AllSteps Bounded) : s.Lossless := by
  have h₀ : State.initial.Sound := ⟨⟨_, rfl, .initial⟩, trivial⟩
  have hs : s.Sound := e.invariant h₀ (fun _ _ _ hs hc h => hs.step hc h) hc
  constructor
  case running =>
    obtain ⟨d, hd, -⟩ := hs.device
    simp [hd]
  case inOrder => exact hs.answers.map_pushed
  case blanks  => exact hs.answers.unserved_eq
  case ignores => exact fun b => hs.ignores

-- Two letters are written, with another byte between them, and the device is read three times.
def busyUser : List Call :=
  [.write 65, .write 97, .write 66, .read, .read, .read]

theorem lossless_of_busy_user : ∃ (s : State) (_ : lab4.Run .initial s),
    served (ops s.log) = [glyph 65, glyph 66] ∧ s.Lossless := by
  have ⟨s, e, he, hs⟩ := Machine.Run.exists_of_exec lab4
    (fun s c => c = .read ∨ fresh (ops s.log) < 100) .initial busyUser
    (fun s => served (ops s.log) = [glyph 65, glyph 66]) (by decide)
  refine ⟨s, e, of_decide_eq_true hs, lossless e <| he.mono fun s c hc => ?_⟩
  rintro b rfl -
  simpa using hc

end Mydev
