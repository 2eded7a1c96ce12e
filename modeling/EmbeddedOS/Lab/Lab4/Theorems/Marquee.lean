import EmbeddedOS.Lab.Lab4.Marquee
import EmbeddedOS.Lab.Lab4.Theorems.Lossless

open C Fifo

namespace Mydev

-- The letters of a name as the driver accepts them.
def Name.letters (n : Name) : List UInt8 :=
  (n.text.map toupper).filter isLetter

def picture (frame : List UInt8) : List Bool :=
  frame.map (· ≠ 48)

-- The letter that a picture shows, none for the blank.
def letter? (p : List Bool) : Option UInt8 :=
  ((List.range 26).map fun i => (65 + i).toUInt8).find? fun b => picture (glyph b) = p

def reads : List Event → List (List UInt8)
  | []                => []
  | .wrote _ :: log   => reads log
  | .read buf :: log => reads log ++ [buf]

variable {b : UInt8} {log : List Event}

theorem isLetter_of_pushed (h : b ∈ pushed (ops log)) : isLetter b := by
  induction log
  case nil => simp [ops, pushed] at h
  case cons v log ih =>
    cases v
    case wrote c =>
      by_cases hc : isLetter c
      case pos =>
        rw [ops_letter hc, pushed] at h
        rcases List.mem_append.mp h with h | h
        case inl => exact ih h
        case inr => exact List.mem_singleton.mp h ▸ hc
      case neg => exact ih (ops_other hc log ▸ h)
    case read => exact ih h

theorem replies_ops : replies (ops log) = reads log := by
  induction log
  case nil => rfl
  case cons v log ih =>
    cases v
    case wrote c =>
      by_cases hc : isLetter c
      case pos => rw [ops_letter hc, replies, ih, reads]
      case neg => rw [ops_other hc, ih, reads]
    case read buf => exact congrArg (· ++ [buf]) ih

theorem pushed_wrote :
    pushed (ops (.wrote b :: log)) = pushed (ops log) ++ [b].filter isLetter := by
  by_cases hb : isLetter b
  case pos => simp [ops_letter hb, pushed, hb]
  case neg => simp [ops_other hb, hb]

-- What `read` gives is 16 of the digits 0 and 1.
structure Frame (buf : List UInt8) : Prop where
  length : buf.length = 16
  digits : ∀ c ∈ buf, c = 48 ∨ c = 49

theorem frame_seg {i : ℕ} (h : i < segForC.length) : Frame (ascii (segForC.getD i "")) := by
  have ht : ∀ text ∈ segForC, (ascii text).length = 16 ∧ ∀ c ∈ ascii text, c = 48 ∨ c = 49 := by
    decide +kernel
  have hs := ht _ <| List.getElem_mem h
  rw [List.getD_eq_getElem _ _ h]
  exact ⟨hs.left, hs.right⟩

theorem frame_of_reads (h : Answers glyph blank (ops log)) {buf : List UInt8}
    (hb : buf ∈ reads log) : Frame buf := by
  rcases h.mem_replies (replies_ops ▸ hb) with rfl | ⟨a, ha, rfl⟩
  case inl => exact frame_seg (by decide)
  case inr => exact frame_seg (letter_index (isLetter_of_pushed ha)).right

namespace Frame

variable {buf : List UInt8} {segs : List Bool}

theorem mapM_digit? (h : ∀ c ∈ buf, c = 48 ∨ c = 49) :
    buf.mapM digit? = some (buf.map (·.toNat - 48)) := by
  induction buf
  case nil => rfl
  case cons c cs ih =>
    rw [List.forall_mem_cons] at h
    have hc : digit? c = some (c.toNat - 48) := by rcases h.left with rfl | rfl <;> rfl
    simp [List.mapM_cons, hc, ih h.right]

-- A frame that arrives whole sets every segment.
theorem show_eq (h : Frame buf) (hs : segs.length = 16) :
    Segs.show segs (buf.map (·.toNat - 48)) = picture buf := by
  have hp : (buf.map (·.toNat - 48)).map (!· == 0) = picture buf := by
    rw [picture, List.map_map]
    refine List.map_congr_left fun c hc => ?_
    rcases h.digits c hc with rfl | rfl <;> rfl
  have hl : (picture buf).length = segs.length := by rw [picture, List.length_map, h.length, hs]
  rw [Segs.show, hp, List.take_of_length_le hl.le, List.drop_of_length_le (by simp [h.length, hs]),
    List.append_nil]

theorem length_picture (h : Frame buf) : (picture buf).length = 16 := by
  rw [picture, List.length_map, h.length]

end Frame

-- The first 16 bytes of a stream of frames are its first frame, wherever the stream has been cut.
theorem frame_of_flatten {inbox wire : List UInt8} {fs : List (List UInt8)}
    (h : ∀ f ∈ fs, Frame f) (he : inbox ++ wire = fs.flatten) (hl : 16 ≤ inbox.length) :
    ∃ f gs, fs = f :: gs ∧ inbox.take 16 = f ∧ inbox.drop 16 ++ wire = gs.flatten := by
  cases fs
  case nil =>
    have hn : inbox = [] := (List.append_eq_nil_iff.mp he).left
    simp [hn] at hl
  case cons f gs =>
    have hf := (h f List.mem_cons_self).length
    refine ⟨f, gs, rfl, ?_, ?_⟩
    case refine_1 =>
      rw [← List.take_append_of_le_length hl, he, List.flatten_cons, ← hf, List.take_left]
    case refine_2 =>
      rw [← List.drop_append_of_le_length hl, he, List.flatten_cons, ← hf, List.drop_left]

namespace Name

variable (n : Name)

theorem buf_eq : n.writer.buf = n.text ++ .replicate (7 - n.text.length) 0 := by
  have hl := n.length
  have hs : 7 - n.text.length = (7 - (n.text.length + 1)) + 1 := by omega
  rw [writer, sprintf, overlay, List.drop_replicate, hs, List.replicate_succ, List.append_assoc,
    List.length_append, List.length_singleton, List.singleton_append]

-- What is written behind the name is ignored.
theorem letters_eq : ((n.writer.buf.take 6).map toupper).filter isLetter = n.letters := by
  have hl := n.length
  have hz : ∀ k, ((List.replicate k (0 : UInt8)).map toupper).filter isLetter = [] := by
    intro k
    rw [List.map_replicate, List.filter_replicate]
    rfl
  rw [buf_eq, List.take_append, List.take_of_length_le hl, List.take_replicate, List.map_append,
    List.filter_append, hz, List.append_nil, letters]

end Name

namespace Marquee

-- The letters that the display has shown, and those that have been typed.
def text (s : Marquee) : List UInt8 :=
  s.shown.filterMap letter?

def typed (s : Marquee) : List UInt8 :=
  s.names.flatMap Name.letters

-- The driver has room for one more letter, and a whole frame has arrived when `seg.py` receives.
def Calm (s : Marquee) : Action → Prop
  | .write => fresh (ops s.mydev.log) < 100
  | .recv  => 16 ≤ s.inbox.length
  | _      => True

instance (s : Marquee) : (a : Action) → Decidable (Calm s a)
  | .write                              => inferInstanceAs (Decidable (_ < _))
  | .recv                               => inferInstanceAs (Decidable (_ ≤ _))
  | .start _ | .read | .send | .deliver _ => inferInstanceAs (Decidable True)

-- What the writer has done of its name.
def Typed (s : Marquee) : Prop :=
  match s.writer with
  | none   => pushed (ops s.mydev.log) = s.typed
  | some w => ∃ ns n, s.names = ns ++ [n] ∧ w.i < 6 ∧ w.buf.drop w.i = n.writer.buf.drop w.i ∧
    pushed (ops s.mydev.log) =
      ns.flatMap Name.letters ++ ((n.writer.buf.take w.i).map toupper).filter isLetter

-- The frames that have been read are those that have been shown, those between the two programs and
-- the one that `reader` still has. What has arrived of the frames in between may end inside of one.
def Framed (s : Marquee) : Prop :=
  ∃ seen fs, reads s.mydev.log = seen ++ fs ++ s.reader.toList ∧
    s.shown = seen.map picture ∧ s.inbox ++ s.wire = fs.flatten

structure Inv (s : Marquee) : Prop where
  sound  : s.mydev.Sound
  typed  : s.Typed
  framed : s.Framed
  segs   : s.segs.length = 16

variable {s s' : Marquee}

theorem Inv.start {n : Name} (h : s.Inv) (hs : marquee.step s (.start n) = some s') : s'.Inv := by
  simp only [marquee, step, Option.ite_none_right_eq_some, Option.some.injEq] at hs
  obtain ⟨hw, rfl⟩ := hs
  have ht := h.typed
  simp only [Typed, hw] at ht
  refine ⟨h.sound, ⟨s.names, n, rfl, by simp [Name.writer], rfl, ?_⟩, h.framed, h.segs⟩
  simpa [Name.writer, Marquee.typed] using ht

-- The next byte is written, behind the bytes that have been written already.
theorem Typed.write {mydev : State} {w : Writer} {c : UInt8} (h : s.Typed)
    (hw : s.writer = some w) (hi : w.buf[w.i]? = some c)
    (hl : mydev.log = .wrote (toupper c) :: s.mydev.log) :
    Typed { s with
      mydev
      writer := if w.i + 1 < 6 then some ⟨w.buf.set w.i (toupper c), w.i + 1⟩ else none } := by
  simp only [Typed, hw] at h
  obtain ⟨ns, n, hn, hlt, hb, hp⟩ := h
  have hc : n.writer.buf[w.i]? = some c := by
    have hd := congrArg (·[0]?) hb
    simpa [hi] using hd.symm
  have ht : ((n.writer.buf.take (w.i + 1)).map toupper).filter isLetter
      = ((n.writer.buf.take w.i).map toupper).filter isLetter ++ [toupper c].filter isLetter := by
    rw [List.take_add_one, hc, Option.toList_some, List.map_append, List.filter_append,
      List.map_singleton]
  have hp : pushed (ops mydev.log) = ns.flatMap Name.letters ++
      ((n.writer.buf.take (w.i + 1)).map toupper).filter isLetter := by
    rw [hl, pushed_wrote, hp, ht, List.append_assoc]
  by_cases h6 : w.i + 1 < 6
  case pos =>
    simp only [Typed, if_pos h6]
    refine ⟨ns, n, hn, h6, ?_, hp⟩
    have hd := congrArg (List.drop 1) hb
    simpa [List.drop_drop, List.drop_set_of_lt, Nat.add_comm] using hd
  case neg =>
    have he : w.i + 1 = 6 := by omega
    rw [he, n.letters_eq] at hp
    simp only [Typed, h6, if_false]
    simp [hp, Marquee.typed, hn]

theorem Inv.write (h : s.Inv) (hc : Calm s .write) (hs : marquee.step s .write = some s') :
    s'.Inv := by
  obtain ⟨w, hw, hs⟩ := Option.bind_eq_some_iff.mp hs
  obtain ⟨c, hi, hs⟩ := Option.bind_eq_some_iff.mp hs
  obtain ⟨mydev, hm, rfl⟩ := Option.map_eq_some_iff.mp hs
  have hd := h.sound.step (fun _ _ _ => hc) hm
  have hl : mydev.log = .wrote (toupper c) :: s.mydev.log := by
    obtain ⟨d, _, rfl⟩ := Option.map_eq_some_iff.mp hm
    rfl
  have ⟨seen, fs, hr, hf⟩ := h.framed
  exact ⟨hd, h.typed.write hw hi hl, ⟨seen, fs, by rw [hl, reads, hr], hf⟩, h.segs⟩

theorem Inv.read (h : s.Inv) (hs : marquee.step s .read = some s') : s'.Inv := by
  simp only [marquee, step, Option.ite_none_left_eq_some, Option.map_eq_some_iff] at hs
  obtain ⟨hn, d, hd, rfl⟩ := hs
  obtain ⟨d', hd', hh⟩ := h.sound.device
  obtain rfl := Option.some.inj (hd'.symm.trans hd)
  obtain ⟨buf, d₁, hm, _⟩ := hh.read
  have hl : lab4.step s.mydev .read = some ⟨some d₁, .read buf :: s.mydev.log⟩ := by
    simp [lab4, Mydev.step, hd, hm]
  obtain ⟨seen, fs, hr, hf⟩ := h.framed
  have hn : s.reader = none := Option.not_isSome_iff_eq_none.mp hn
  simp only [hm]
  refine ⟨h.sound.step (by rintro _ ⟨⟩) hl, h.typed, ⟨seen, fs, ?_, hf⟩, h.segs⟩
  simp [reads, hr, hn]

theorem Inv.send (h : s.Inv) (hs : marquee.step s .send = some s') : s'.Inv := by
  obtain ⟨buf, hb, rfl⟩ := Option.map_eq_some_iff.mp hs
  have ⟨seen, fs, hr, hn, hw⟩ := h.framed
  refine ⟨h.sound, h.typed, ⟨seen, fs ++ [buf], ?_, hn, ?_⟩, h.segs⟩
  case refine_1 => simp [hr, hb]
  case refine_2 => simp [← List.append_assoc, hw]

theorem Inv.frames (h : s.Inv) {f : List UInt8} (hf : f ∈ reads s.mydev.log) : Frame f :=
  frame_of_reads h.sound.answers hf

-- The stream may be cut anywhere.
theorem Inv.deliver {k : ℕ} (h : s.Inv) (hs : marquee.step s (.deliver k) = some s') : s'.Inv := by
  obtain rfl := Option.some.inj hs
  have ⟨seen, fs, hr, hn, hw⟩ := h.framed
  exact ⟨h.sound, h.typed, ⟨seen, fs, hr, hn, by simpa using hw⟩, h.segs⟩

theorem Inv.recv (h : s.Inv) (hc : Calm s .recv) (hs : marquee.step s .recv = some s') :
    s'.Inv := by
  simp only [marquee, step, Option.ite_none_left_eq_some, Option.map_eq_some_iff] at hs
  obtain ⟨-, digits, hd, rfl⟩ := hs
  have ⟨seen, fs, hr, hn, hw⟩ := h.framed
  obtain ⟨f, gs, rfl, ht, hg⟩ :=
    frame_of_flatten (fun f hf => h.frames (by simp [hr, hf])) hw hc
  have hf : Frame f := h.frames (by simp [hr])
  rw [ht, Frame.mapM_digit? hf.digits] at hd
  obtain rfl := Option.some.inj hd
  have hsg := hf.show_eq h.segs
  refine ⟨h.sound, h.typed, ⟨seen ++ [f], gs, ?_, ?_, hg⟩, ?_⟩
  case refine_1 => simp [hr]
  case refine_2 => simp [hn, hsg]
  case refine_3 => simp [hsg, hf.length_picture]

theorem Inv.of_step {a : Action} (h : s.Inv) (hc : Calm s a) (hs : marquee.step s a = some s') :
    s'.Inv := by
  cases a
  case start   => exact h.start hs
  case write   => exact h.write hc hs
  case read    => exact h.read hs
  case send    => exact h.send hs
  case deliver => exact h.deliver hs
  case recv    => exact h.recv hc hs

end Marquee
end Mydev
