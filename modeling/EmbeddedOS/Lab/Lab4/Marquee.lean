import EmbeddedOS.Lab.Lab4.Mydev

open C

namespace Mydev

def toupper (c : UInt8) : UInt8 :=
  if 97 ≤ c ∧ c ≤ 122 then c - 32 else c

-- A name that fits `buf` of `writer.c`, a longer one would be stored behind its end.
structure Name where
  text    : List UInt8
  length  : text.length ≤ 6
  nonzero : 0 ∉ text

-- The program `writer` in its loop.
structure Writer where
  buf : List UInt8
  i   : ℕ
deriving DecidableEq

def Name.writer (n : Name) : Writer where
  buf := sprintf (.replicate 7 0) n.text
  i   := 0

-- The characters that the display gets are digits, for any other one `int` raises an exception.
def digit? (c : UInt8) : Option ℕ :=
  if isdigit c then some (c.toNat - 48) else none

-- `zip` leaves those segments as they are for which there is no digit.
def Segs.show (segs : List Bool) (digits : List ℕ) : List Bool :=
  (digits.map (!· == 0)).take segs.length ++ segs.drop digits.length

-- The four programs: `writer`, which can be started again when it has ended, the driver, `reader`
-- between its `read` and its `write`, and `seg.py` behind a connection, where bytes are on the way
-- or have arrived. The names and the pictures shown so far are not part of the programs.
structure Marquee where
  writer : Option Writer
  mydev  : State
  reader : Option (List UInt8)
  wire   : List UInt8
  inbox  : List UInt8
  segs   : List Bool
  names  : List Name
  shown  : List (List Bool)

inductive Marquee.Action
  | start (n : Name)
  | write
  | read
  | send
  | deliver (k : ℕ)    -- the next `k` bytes arrive
  | recv

namespace Marquee

def initial : Marquee where
  writer := none
  mydev  := .initial
  reader := none
  wire   := []
  inbox  := []
  segs   := .replicate 16 false
  names  := []
  shown  := []

def step (s : Marquee) : Action → Option Marquee
  | .start n =>
    if s.writer = none
    then some { s with writer := some n.writer, names := s.names ++ [n] }
    else none
  | .write =>
    s.writer.bind fun w => w.buf[w.i]?.bind fun c =>
      (lab4.step s.mydev (.write <| toupper c)).map fun mydev => { s with
        mydev
        writer := if w.i + 1 < 6 then some ⟨w.buf.set w.i (toupper c), w.i + 1⟩ else none }
  | .read =>
    if s.reader.isSome then none
    else s.mydev.device.map fun d => match d.myRead 16 with
      | some (buf, d) => { s with
        mydev  := { device := some d, log := .read buf :: s.mydev.log }
        reader := some buf }
      | none          => { s with mydev := { s.mydev with device := none } }
  | .send => s.reader.map fun buf => { s with wire := s.wire ++ buf, reader := none }
  | .deliver k => some { s with wire := s.wire.drop k, inbox := s.inbox ++ s.wire.take k }
  | .recv =>
    if s.inbox = [] then none
    else ((s.inbox.take 16).mapM digit?).map fun digits => { s with
      inbox := s.inbox.drop 16
      segs  := Segs.show s.segs digits
      shown := s.shown ++ [Segs.show s.segs digits] }

end Marquee

def marquee : Machine Marquee Marquee.Action where
  step := Marquee.step

end Mydev
