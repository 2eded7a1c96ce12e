import EmbeddedOS.Lab.Lab6.Theorems.Scan

open C

namespace Atm

-- The results of `recv` into which the stream of one client is cut: `n` times the same message, and
-- the exit.
structure IsCut (m : Message) (n : ℕ) (cuts : List (List UInt8)) : Prop where
  sizes  : ∀ chunk ∈ cuts, 1 ≤ chunk.length ∧ chunk.length ≤ 128
  stream : cuts.flatten = (List.replicate n (Record.money m).bytes).flatten ++ Record.exit.bytes

-- Each of the `n` messages, the first of which starts `z` bytes from here, starts with a result of
-- `recv` that holds all of its text.
def Intact (m : Message) (n z : ℕ) (cuts : List (List UInt8)) : Prop :=
  ∀ i < n, ∃ before chunk after, cuts = before ++ chunk :: after ∧
    before.flatten.length = z + 128 * i ∧ (Record.money m).text.length ≤ chunk.length

-- The results of `recv` when each record arrives as a whole.
def whole (m : Message) (n : ℕ) : List (List UInt8) :=
  .replicate n (Record.money m).bytes ++ [Record.exit.bytes]

-- What the thread of a client makes of the balance.
def Bank.served (money : ℤ) (cuts : List (List UInt8)) : ℤ × Bank :=
  serve (money, .start) (cuts.map .bytes ++ [.eof])

variable {m : Message} {n z j k : ℕ} {money : ℤ} {b b' : Bank} {op : Operation}
variable {chunk rest word : List UInt8} {cuts chunks : List (List UInt8)}

namespace Bank

theorem dispatch_op (hw : b.whatToDo = op.name) (k : ℤ) : b.dispatch k = b.goto (.load op k) := by
  cases op
  case deposit  => exact if_pos hw
  case withdraw =>
    have hn : b.whatToDo ≠ Operation.name .deposit := by rw [hw]; decide
    exact (if_neg hn).trans (if_pos hw)

theorem dispatch_exit (hw : b.whatToDo = ascii "exit") (k : ℤ) : b.dispatch k = b.goto .ended := by
  have hd : b.whatToDo ≠ Operation.name .deposit := by rw [hw]; decide
  have hw' : b.whatToDo ≠ Operation.name .withdraw := by rw [hw]; decide
  exact (if_neg hd).trans <| (if_neg hw').trans (if_pos hw)

theorem dispatch_other (ho : ∀ op, b.whatToDo ≠ Operation.name op) (hx : b.whatToDo ≠ ascii "exit")
    (k : ℤ) : b.dispatch k = b.goto .recv :=
  (if_neg <| ho .deposit).trans <| (if_neg <| ho .withdraw).trans (if_neg hx)

theorem step_handle (hpc : b.pc = .handle) {k : ℤ}
    (hs : scan b.receive b.whatToDo = some (word, k)) :
    b.step money = some (money, { b with whatToDo := word }.dispatch k) := by
  simp [step, hpc, hs]

theorem run_some {x : ℤ × Bank} (h : b.step money = some x) :
    run (n + 1) (money, b) = run n x := by
  simp only [run, h]

theorem run_none (h : b.step money = none) : run n (money, b) = (money, b) := by
  cases n
  case zero => rfl
  case succ => simp only [run, h]

-- What a thread does with a command between two calls of `recv`.
theorem run_op (hpc : b.pc = .handle) {k : ℤ} (hs : scan b.receive b.whatToDo = some (op.name, k)) :
    run 3 (money, b) = (op.apply k money, { b with whatToDo := op.name, pc := .recv }) := by
  have h : b.step money = _ := step_handle hpc hs
  rw [dispatch_op rfl] at h
  rw [run_some h, run_some rfl, run_some rfl]
  rfl

theorem run_exit (hpc : b.pc = .handle) {k : ℤ}
    (hs : scan b.receive b.whatToDo = some (ascii "exit", k)) :
    run 3 (money, b) = (money, { b with whatToDo := ascii "exit", pc := .ended }) := by
  have h : b.step money = _ := step_handle hpc hs
  rw [dispatch_exit rfl] at h
  rw [run_some h, run_none rfl]
  rfl

theorem run_other (hpc : b.pc = .handle) {k : ℤ}
    (hs : scan b.receive b.whatToDo = some (word, k)) (ho : ∀ op, word ≠ Operation.name op)
    (hx : word ≠ ascii "exit") :
    run 3 (money, b) = (money, { b with whatToDo := word, pc := .recv }) := by
  have h : b.step money = _ := step_handle hpc hs
  rw [dispatch_other ho hx] at h
  rw [run_some h, run_none rfl]
  rfl

-- A command with the amount 0 leaves the balance as it is.
theorem run_nothing (hpc : b.pc = .handle) (hm : C.int money = money)
    (hs : scan b.receive b.whatToDo = some (word, 0)) (hx : word ≠ ascii "exit") :
    run 3 (money, b) = (money, { b with whatToDo := word, pc := .recv }) := by
  by_cases ho : ∃ op, word = Operation.name op
  case pos =>
    obtain ⟨op, rfl⟩ := ho
    have ha : op.apply 0 money = money := by cases op <;> simpa [Operation.apply] using hm
    rw [run_op hpc hs, ha]
  case neg => exact run_other hpc hs (not_exists.mp ho) hx

theorem serve_cons {r : Received} {rs : List Received} {money' : ℤ} {b'' : Bank}
    (hr : b.recv r = some b') (h : run 3 (money, b') = (money', b'')) :
    serve (money, b) (r :: rs) = serve (money', b'') rs := by
  simp only [serve, hr, h]

theorem serve_ended (hpc : b.pc = .ended) {rs : List Received} :
    serve (money, b) rs = (money, b) := by
  cases rs
  case nil => rfl
  case cons r rs =>
    have hr : b.recv r = none := by cases r <;> simp [recv, hpc]
    simp only [serve, hr]

theorem recv_bytes (hpc : b.pc = .recv) (h : 1 ≤ chunk.length ∧ chunk.length ≤ 128) :
    b.recv (.bytes chunk) = some { b with receive := overlay chunk b.receive, pc := .handle } := by
  simp [recv, hpc, h]

end Bank

-- A buffer that starts with NUL holds no word.
theorem scan_empty (h : chunk.head? = some 0) {buf whatToDo : List UInt8} :
    scan (overlay chunk buf) whatToDo = some (whatToDo, 0) := by
  obtain ⟨cs, rfl⟩ := List.head?_eq_some_iff.mp h
  simp [scan, overlay, string?, scanWord]

-- The buffer of a thread between two calls of `recv` while its client sends the message `m`: all
-- that it has received stands where the text of the message is, and the blank of the text is there
-- or has been overwritten by NUL.
structure Bank.Ready (m : Message) (b : Bank) : Prop where
  pc       : b.pc = .recv
  size     : b.receive.length = 128
  tail     : ∀ i ≥ (Record.money m).text.length, ∀ c ∈ b.receive[i]?, c = 0
  blank    : ∃ c ∈ b.receive[m.op.name.length]?, c = 0 ∨ c = 32
  whatToDo : b.whatToDo ≠ ascii "exit"

theorem zero_of_bytes {i : ℕ} {c : UInt8} {r : Record} (hi : r.text.length ≤ i)
    (hc : r.bytes[i]? = some c) : c = 0 := by
  rw [Record.bytes_eq, List.getElem?_append_right hi] at hc
  exact List.eq_of_mem_replicate <| List.mem_of_getElem? hc

theorem bytes_blank : (Record.money m).bytes[m.op.name.length]? = some 32 := by
  rw [Record.bytes_eq, Record.text, List.append_assoc, List.append_assoc,
    List.getElem?_append_right le_rfl, Nat.sub_self]
  rfl

theorem bytes_take (r : Record) : r.bytes.take r.text.length = r.text := by
  rw [Record.bytes_eq, List.take_left]

theorem name_ne_exit (op : Operation) : op.name ≠ ascii "exit" := by
  cases op <;> decide

-- A buffer that starts with the text of a record and goes on with NUL is read as the record.
theorem scan_of_take {r : Record} {buf whatToDo : List UInt8}
    (ht : buf.take r.text.length = r.text) (h₀ : buf[r.text.length]? = some 0) :
    scan buf whatToDo = some (r.word, r.number) := by
  have ⟨hl, hb⟩ := List.getElem?_eq_some_iff.mp h₀
  have hd : buf = r.text ++ 0 :: buf.drop (r.text.length + 1) := by
    rw [← hb, ← List.drop_eq_getElem_cons hl]
    exact (List.take_append_drop _ buf).symm.trans (by rw [ht])
  rw [hd, r.scan_text]

namespace Bank.Ready

theorem start : Bank.start.Ready m where
  pc       := rfl
  size     := rfl
  tail     := fun _ _ _ hc => List.eq_of_mem_replicate <| List.mem_of_getElem? hc
  blank    := ⟨0, by cases m.op <;> rfl, .inl rfl⟩
  whatToDo := by decide

theorem text_lt (r : Record) : r.text.length < 128 :=
  r.text_length_le.trans_lt (by decide)

-- What overwrites the buffer keeps it in shape when it is a part of the record.
theorem overlay (hb : b.Ready m) (hl : chunk.length ≤ 128)
    (ht : ∀ i ≥ (Record.money m).text.length, ∀ c ∈ chunk[i]?, c = 0)
    (hs : ∀ c ∈ chunk[m.op.name.length]?, c = 0 ∨ c = 32) {whatToDo : List UInt8}
    (hw : whatToDo ≠ ascii "exit") :
    Bank.Ready m { receive := overlay chunk b.receive, whatToDo, pc := .recv } where
  pc       := rfl
  size     := (overlay_length <| hl.trans hb.size.ge).trans hb.size
  tail i hi c hc := by
    rw [overlay_get] at hc
    split at hc
    case isTrue  => exact ht i hi c hc
    case isFalse => exact hb.tail i hi c hc
  blank := by
    rw [overlay_get]
    split
    case isTrue hi => exact ⟨_, List.getElem?_eq_getElem hi, hs _ <| List.getElem?_eq_getElem hi⟩
    case isFalse   => exact hb.blank
  whatToDo := hw

-- A result of `recv` that holds the whole text of the message is read as the message.
theorem message (hb : b.Ready m) (money : ℤ) (hc : chunk <+: (Record.money m).bytes)
    (hl : (Record.money m).text.length ≤ chunk.length) :
    ∃ b' b'', b.recv (.bytes chunk) = some b' ∧
      run 3 (money, b') = (m.op.apply m.amount money, b'') ∧ b''.Ready m := by
  have hlt := text_lt (.money m)
  have h₁ : 1 ≤ chunk.length := by
    simp only [Record.text, List.length_append] at hl
    have : (ascii " ").length = 1 := rfl
    omega
  have hle : chunk.length ≤ 128 := (Record.money m).bytes_length ▸ hc.length_le
  have hget : ∀ (i : ℕ), ∀ c ∈ chunk[i]?, (Record.money m).bytes[i]? = some c := by
    intro i c h
    obtain ⟨hi, rfl⟩ := List.getElem?_eq_some_iff.mp h
    exact List.prefix_iff_getElem?.mp hc i hi
  have hr : Bank.Ready m
      { receive := C.overlay chunk b.receive, whatToDo := m.op.name, pc := .recv } := by
    refine hb.overlay hle ?_ ?_ (name_ne_exit m.op)
    case refine_1 => exact fun i hi c h => zero_of_bytes (r := .money m) hi (hget i c h)
    case refine_2 => exact fun c h => .inr <| Option.some.inj <| (hget _ c h).symm.trans bytes_blank
  have ht : (C.overlay chunk b.receive).take (Record.money m).text.length =
      (Record.money m).text := by
    rw [overlay_take hl, List.prefix_iff_eq_take.mp hc, List.take_take, min_eq_left hl, bytes_take]
  have h₀ : (C.overlay chunk b.receive)[(Record.money m).text.length]? = some 0 := by
    have hi := List.getElem?_eq_getElem (hr.size ▸ hlt)
    exact hi.trans <| congrArg some <| hr.tail _ le_rfl _ hi
  exact ⟨_, _, recv_bytes hb.pc ⟨h₁, hle⟩, run_op rfl (scan_of_take ht h₀), hr⟩

-- Another result of `recv`, which is a part of the NULs behind the text, changes nothing.
theorem padding (hb : b.Ready m) (hm : C.int money = money) (hc : ∀ c ∈ chunk, c = 0)
    (hl : 1 ≤ chunk.length ∧ chunk.length ≤ 128) :
    ∃ b' b'', b.recv (.bytes chunk) = some b' ∧ run 3 (money, b') = (money, b'') ∧
      b''.Ready m := by
  have h₀ : chunk.head? = some 0 := by
    cases chunk
    case nil       => simp at hl
    case cons c cs => rw [List.head?_cons, hc c List.mem_cons_self]
  have hget : ∀ {i : ℕ}, ∀ c ∈ chunk[i]?, c = 0 := fun c h => hc c <| List.mem_of_getElem? h
  have hr : Bank.Ready m _ :=
    hb.overlay hl.right (fun _ _ => hget) (fun c h => .inl <| hget c h) hb.whatToDo
  exact ⟨_, _, recv_bytes hb.pc hl, run_nothing rfl hm (scan_empty h₀) hb.whatToDo, hr⟩

end Bank.Ready

-- The bytes of a buffer or a stream that are not NUL.
def content (bytes : List UInt8) : ℕ :=
  bytes.countP (· ≠ 0)

-- Among more bytes than there can be others, one is NUL.
theorem exists_zero_get (hj : j < chunk.length) (hk : k + content chunk ≤ j) :
    ∃ i, k ≤ i ∧ i ≤ j ∧ chunk[i]? = some 0 := by
  by_contra h
  push Not at h
  have hz : ∀ c ∈ (chunk.take (j + 1)).drop k, decide (c ≠ 0) = true := by
    intro c hc
    obtain ⟨i, hi, rfl⟩ := List.getElem_of_mem hc
    simp only [List.length_drop, List.length_take] at hi
    refine decide_eq_true fun h₀ => h (k + i) (by omega) (by omega) ?_
    rw [List.getElem_drop, List.getElem_take] at h₀
    rw [List.getElem?_eq_getElem (by omega), h₀]
  have hs : ((chunk.take (j + 1)).drop k).Sublist chunk :=
    (List.drop_sublist _ _).trans (List.take_sublist _ _)
  have hc := hs.countP_le (p := (· ≠ 0))
  rw [List.countP_eq_length.mpr hz, List.length_drop, List.length_take] at hc
  simp only [content] at hk
  omega

-- A thread that has still to receive `rest`, which has no message in it any more. There is a blank
-- or NUL early enough in its buffer for each word to fit into `what_to_do`.
structure Bank.Closing (b : Bank) (rest : List UInt8) : Prop where
  pc       : b.pc = .recv
  size     : b.receive.length = 128
  letters  : ∀ c ∈ rest, c = 0 ∨ c ∈ ascii "exit"
  stop     : ∃ j ≤ 8, content rest ≤ j ∧ ∃ c ∈ b.receive[j]?, c = 0 ∨ c = 32
  room     : content b.receive + content rest < 128

-- A word ends at the first blank or NUL.
theorem word_length_le {buf : List UInt8} {c : UInt8} (hj : buf[j]? = some c)
    (hc : c = 0 ∨ c = 32) : ((buf.takeWhile (· ≠ 0)).takeWhile (!isspace ·)).length ≤ j := by
  by_contra h
  rw [not_le] at h
  have hp := (List.takeWhile_prefix (!isspace ·)).trans (List.takeWhile_prefix (· ≠ 0) (l := buf))
  have hw := List.getElem?_eq_getElem h
  have he := (List.prefix_iff_getElem?.mp hp j h).symm.trans hj
  have hm := List.mem_of_getElem? <| hw.trans he
  have hs := List.mem_takeWhile_imp hm
  have h₀ := List.mem_takeWhile_imp <| (List.takeWhile_sublist _).subset hm
  rcases hc with rfl | rfl
  case inl => simp at h₀
  case inr => exact absurd hs (by decide)

-- What is read from a buffer that starts with a letter of `exit` is not a message.
theorem scan_letter {bs whatToDo : List UInt8} {x : UInt8} (h₀ : 0 ∈ x :: bs)
    (hx : x ∈ ascii "exit") (hj : ∃ j ≤ 8, ∃ c ∈ (x :: bs)[j]?, c = 0 ∨ c = 32) :
    ∃ word k, scan (x :: bs) whatToDo = some (word, k) ∧ ∀ op, word ≠ Operation.name op := by
  obtain ⟨j, hj, c, hc, hcs⟩ := hj
  have ⟨hx₀, hxs, hxd, hxw⟩ : x ≠ 0 ∧ isspace x = false ∧ x ≠ 100 ∧ x ≠ 119 := by
    have hd : (ascii "exit").all fun x => x ≠ 0 && !isspace x && x ≠ 100 && x ≠ 119 := by decide
    simpa [and_assoc] using List.all_eq_true.mp hd x hx
  have ht : (x :: bs).takeWhile (· ≠ 0) = x :: bs.takeWhile (· ≠ 0) := by simp [hx₀]
  have hl := word_length_le hc hcs
  obtain ⟨rest, hw⟩ := scanWord_cons hxs (bs.takeWhile (· ≠ 0))
  refine ⟨x :: (bs.takeWhile (· ≠ 0)).takeWhile (!isspace ·), (scanInt rest).getD 0, ?_, ?_⟩
  case refine_1 =>
    rw [ht, List.takeWhile_cons_of_pos (by simp [hxs])] at hl
    rw [scan, string?, if_pos h₀, Option.bind_some, ht, hw]
    exact if_pos (by omega)
  case refine_2 =>
    intro op ho
    have hd := congrArg List.head? ho
    cases op
    case deposit  => exact hxd <| Option.some.inj hd
    case withdraw => exact hxw <| Option.some.inj hd

namespace Bank.Closing

theorem overlay (hb : b.Closing (chunk ++ rest)) (hl : chunk.length ≤ 128) (whatToDo : List UInt8) :
    Bank.Closing { receive := overlay chunk b.receive, whatToDo, pc := .recv } rest := by
  have hct : content (chunk ++ rest) = content chunk + content rest := List.countP_append
  constructor
  case pc      => rfl
  case size    => exact (overlay_length <| hl.trans hb.size.ge).trans hb.size
  case letters => exact fun c hc => hb.letters c <| List.mem_append_right _ hc
  case room =>
    have ho := overlay_countP chunk b.receive (· ≠ 0)
    have hr := hb.room
    simp only [content, List.countP_append] at hr ⊢
    omega
  case stop =>
    obtain ⟨j, hj, hk, c, hc, hcs⟩ := hb.stop
    by_cases hcov : j < chunk.length
    case neg =>
      exact ⟨j, hj, by omega, c, by rwa [overlay_get, if_neg hcov], hcs⟩
    case pos =>
      obtain ⟨i, hki, hij, h₀⟩ := exists_zero_get (k := content rest) hcov (by omega)
      exact ⟨i, by omega, hki, 0, by rwa [overlay_get, if_pos (by omega)], .inl rfl⟩

theorem zero_mem (hb : b.Closing rest) : 0 ∈ b.receive := by
  by_contra h
  have hz : ∀ c ∈ b.receive, decide (c ≠ 0) = true :=
    fun c hc => decide_eq_true <| ne_of_mem_of_not_mem hc h
  have hr := hb.room
  rw [content, List.countP_eq_length.mpr hz, hb.size] at hr
  omega

-- What is left of a stream without a message in it changes nothing.
theorem round (hb : b.Closing (chunk ++ rest)) (hm : C.int money = money)
    (hl : 1 ≤ chunk.length ∧ chunk.length ≤ 128) :
    ∃ b' b'', b.recv (.bytes chunk) = some b' ∧ run 3 (money, b') = (money, b'') ∧
      (b''.Closing rest ∨ b''.pc = .ended) := by
  obtain ⟨x, cs, rfl⟩ := List.exists_cons_of_length_pos hl.left
  have hc := hb.overlay hl.right
  -- What is read is not a message, or it is one with the amount 0.
  have hs : ∃ word k, scan (C.overlay (x :: cs) b.receive) b.whatToDo = some (word, k) ∧
      (k = 0 ∨ ∀ op, word ≠ Operation.name op) := by
    rcases hb.letters x List.mem_cons_self with rfl | hx
    case inl => exact ⟨_, 0, scan_empty rfl, .inl rfl⟩
    case inr =>
      have ⟨j, hj, _, hjc⟩ := (hc []).stop
      have h₀ : 0 ∈ C.overlay (x :: cs) b.receive := zero_mem (hc [])
      obtain ⟨word, k, hs, ho⟩ := scan_letter h₀ hx ⟨j, hj, hjc⟩
      exact ⟨word, k, hs, .inr ho⟩
  obtain ⟨word, k, hs, hk⟩ := hs
  have hr := recv_bytes hb.pc hl
  by_cases hx : word = ascii "exit"
  case pos => subst hx; exact ⟨_, _, hr, run_exit rfl hs, .inr rfl⟩
  case neg =>
    rcases hk with rfl | ho
    case inl => exact ⟨_, _, hr, run_nothing rfl hm hs hx, .inl <| hc _⟩
    case inr => exact ⟨_, _, hr, run_other rfl hs ho hx, .inl <| hc _⟩

theorem serve (hm : C.int money = money)
    (hs : ∀ chunk ∈ chunks, 1 ≤ chunk.length ∧ chunk.length ≤ 128)
    (hb : b.Closing chunks.flatten) :
    ∃ b', Bank.serve (money, b) (chunks.map .bytes ++ [.eof]) = (money, b') ∧ b'.pc = .ended := by
  induction chunks generalizing b
  case nil =>
    have hr : b.recv .eof = some (b.goto .ended) := if_pos hb.pc
    exact ⟨_, serve_cons hr (run_none rfl), rfl⟩
  case cons chunk chunks ih =>
    obtain ⟨b', b'', hr, hrun, hb'⟩ := hb.round hm <| hs chunk List.mem_cons_self
    rw [List.map_cons, List.cons_append, serve_cons hr hrun]
    rcases hb' with hb' | hpc
    case inl => exact ih (fun c hc => hs c <| List.mem_cons_of_mem _ hc) hb'
    case inr => exact ⟨b'', serve_ended hpc, hpc⟩

end Bank.Closing

-- Between two messages a thread is also ready for the exit.
theorem Bank.Ready.closing (hb : b.Ready m) :
    b.Closing (.replicate z 0 ++ Record.exit.bytes) := by
  have hx : content Record.exit.bytes = 4 := by decide
  have hz : content (List.replicate z 0 : List UInt8) = 0 := by simp [content]
  have hct : content (.replicate z 0 ++ Record.exit.bytes) = 4 := by
    rw [content, List.countP_append]
    exact (congrArg₂ (· + ·) hz hx)
  constructor
  case pc   => exact hb.pc
  case size => exact hb.size
  case letters =>
    intro c hc
    rcases List.mem_append.mp hc with hc | hc
    case inl => exact .inl <| List.eq_of_mem_replicate hc
    case inr =>
      rw [Record.bytes_eq] at hc
      exact (List.mem_append.mp hc).symm.imp List.eq_of_mem_replicate id
  case stop => exact ⟨_, m.op.name_length, by rw [hct]; cases m.op <;> decide, hb.blank⟩
  case room =>
    have hd : content (b.receive.drop (Record.money m).text.length) = 0 := by
      refine List.countP_eq_zero.mpr fun c hc => ?_
      obtain ⟨i, hi⟩ := List.getElem?_of_mem hc
      rw [List.getElem?_drop] at hi
      simp [hb.tail _ (Nat.le_add_right _ i) c hi]
    have ht : content (b.receive.take (Record.money m).text.length) ≤ 20 :=
      List.countP_le_length.trans <| (List.length_take_le _ _).trans (Record.money m).text_length_le
    have hsum : content b.receive ≤ 20 := by
      rw [← List.take_append_drop (Record.money m).text.length b.receive, content,
        List.countP_append]
      exact Nat.add_le_add ht hd.le
    omega

theorem Operation.int_apply (op : Operation) (k money : ℤ) :
    C.int (op.apply k money) = op.apply k money := by
  cases op <;> exact Int.bmod_bmod

theorem split_append {α : Type*} {a b c d : List α} (h : a ++ b = c ++ d)
    (hl : a.length ≤ c.length) : ∃ e, c = a ++ e ∧ b = e ++ d := by
  rcases List.append_eq_append_iff.mp h with ⟨e, rfl, rfl⟩ | ⟨e, rfl, rfl⟩
  case inl => exact ⟨e, rfl, rfl⟩
  case inr =>
    have he : e = [] := by simpa using hl
    exact ⟨[], by simp [he], by simp [he]⟩

-- Behind its text a record is NUL.
theorem rest_of_bytes {r : Record} (he : r.bytes = chunk ++ rest)
    (ht : r.text.length ≤ chunk.length) : rest = .replicate (128 - chunk.length) 0 := by
  have hl := congrArg List.length he
  rw [r.bytes_length, List.length_append] at hl
  refine List.eq_replicate_iff.mpr ⟨by omega, fun c hc => ?_⟩
  obtain ⟨i, hi⟩ := List.getElem?_of_mem hc
  refine zero_of_bytes (r := r) (i := chunk.length + i) (by omega) ?_
  rw [he, List.getElem?_append_right (by omega), Nat.add_sub_cancel_left, hi]

-- A message that does not start here starts in what follows the first result of `recv`.
theorem Intact.later {i : ℕ} (hi : Intact m n z (chunk :: cuts)) (h : i < n)
    (hz : 0 < z + 128 * i) :
    ∃ before c after, cuts = before ++ c :: after ∧
      before.flatten.length + chunk.length = z + 128 * i ∧
      (Record.money m).text.length ≤ c.length := by
  obtain ⟨before, c, after, hc, hl, ht⟩ := hi i h
  cases before
  case nil => simp at hl; omega
  case cons chunk' before =>
    obtain ⟨rfl, rfl⟩ := List.cons.inj hc
    refine ⟨before, c, after, rfl, ?_, ht⟩
    rw [← hl, List.flatten_cons, List.length_append, Nat.add_comm]

-- The balance after all messages of a client, if each of them is received intact.
theorem serve_of_intact (hb : b.Ready m) (hm : C.int money = money)
    (hs : ∀ chunk ∈ cuts, 1 ≤ chunk.length ∧ chunk.length ≤ 128)
    (hc : cuts.flatten =
      .replicate z 0 ++ (List.replicate n (Record.money m).bytes).flatten ++ Record.exit.bytes)
    (hi : Intact m n z cuts) :
    ∃ b', Bank.serve (money, b) (cuts.map .bytes ++ [.eof]) =
      ((m.op.apply m.amount)^[n] money, b') ∧ b'.pc = .ended := by
  induction cuts generalizing b money n z
  case nil =>
    have hl := congrArg List.length hc
    simp [Record.bytes_length] at hl
  case cons chunk cuts ih =>
    have hs' : ∀ c ∈ cuts, 1 ≤ c.length ∧ c.length ≤ 128 :=
      fun c hc => hs c <| List.mem_cons_of_mem _ hc
    have hsz := hs chunk List.mem_cons_self
    cases n
    case zero =>
      refine Bank.Closing.serve hm hs ?_
      rw [hc]
      simpa using hb.closing
    case succ n =>
      cases z
      -- The next message starts here.
      case zero =>
        obtain ⟨before, chunk', after, hd, hl, ht⟩ := hi 0 n.succ_pos
        cases before
        case cons c before =>
          obtain ⟨rfl, -⟩ := List.cons.inj hd
          simp at hl
          simp [hl.left] at hsz
        case nil =>
          obtain ⟨rfl, rfl⟩ := List.cons.inj hd
          rw [List.flatten_cons, List.replicate_succ, List.flatten_cons, List.replicate_zero,
            List.nil_append, List.append_assoc] at hc
          obtain ⟨e, he, hc⟩ := split_append hc <| by rw [Record.bytes_length]; exact hsz.right
          obtain ⟨b', b'', hr, hrun, hb'⟩ := hb.message money ⟨e, he.symm⟩ ht
          have hz := rest_of_bytes he ht
          rw [List.map_cons, List.cons_append, Bank.serve_cons hr hrun,
            Function.iterate_succ_apply]
          refine ih hb' ?_ hs' (by rw [hc, hz, List.append_assoc]) fun i h => ?_
          case refine_1 => exact m.op.int_apply _ _
          case refine_2 =>
            obtain ⟨before, c, after, hd, hl, ht⟩ := hi.later (Nat.succ_lt_succ h) (by omega)
            exact ⟨before, c, after, hd, by omega, ht⟩
      -- The stream goes on with the NULs behind a message.
      case succ z =>
        have ⟨_, _, _, _, hl, _⟩ := hi.later n.succ_pos (by omega)
        rw [List.flatten_cons, List.append_assoc] at hc
        obtain ⟨e, he, hc⟩ := split_append hc <| by rw [List.length_replicate]; omega
        have ⟨hlen, hce⟩ := List.eq_replicate_iff.mp he.symm
        obtain ⟨b', b'', hr, hrun, hb'⟩ :=
          hb.padding hm (fun c h => hce c <| List.mem_append_left _ h) hsz
        have hz : e = .replicate (z + 1 - chunk.length) 0 := by
          rw [List.length_append] at hlen
          exact List.eq_replicate_iff.mpr
            ⟨by omega, fun c h => hce c <| List.mem_append_right _ h⟩
        rw [List.map_cons, List.cons_append, Bank.serve_cons hr hrun]
        refine ih hb' hm hs' (by rw [hc, hz, List.append_assoc]) fun i h => ?_
        obtain ⟨before, c, after, hd, hl', ht⟩ := hi.later h (by omega)
        exact ⟨before, c, after, hd, by omega, ht⟩

theorem whole_cut : IsCut m n (whole m n) := by
  constructor
  case sizes =>
    intro chunk hc
    have hl : chunk.length = 128 := by
      rcases List.mem_append.mp hc with hc | hc
      case inl => rw [List.eq_of_mem_replicate hc, Record.bytes_length]
      case inr => rw [List.mem_singleton.mp hc, Record.bytes_length]
    omega
  case stream => rw [whole, List.flatten_append, List.flatten_singleton]

theorem whole_intact : Intact m n 0 (whole m n) := by
  intro i hi
  refine ⟨.replicate i (Record.money m).bytes, (Record.money m).bytes,
    .replicate (n - i - 1) (Record.money m).bytes ++ [Record.exit.bytes], ?_, ?_, ?_⟩
  case refine_1 =>
    have hn : n = i + (n - i - 1 + 1) := by omega
    conv_lhs => rw [whole, hn, List.replicate_add, List.replicate_succ]
    simp
  case refine_2 => simp [Record.bytes_length, Nat.mul_comm]
  case refine_3 => rw [Record.bytes_length]; exact (Bank.Ready.text_lt _).le

-- However the stream of a client is cut, its thread makes the same of the balance as when each
-- record arrives whole, as long as each message starts with a result of `recv` that holds its text.
-- The exit may be cut in any way.
theorem served_eq_whole (h₁ : -2 ^ 31 ≤ money) (h₂ : money < 2 ^ 31) (hc : IsCut m n cuts)
    (hi : Intact m n 0 cuts) :
    (Bank.served money cuts).1 = (Bank.served money (whole m n)).1 ∧
      (Bank.served money cuts).2.pc = .ended := by
  have hm := C.int_eq h₁ h₂
  obtain ⟨b, hb, hpc⟩ := serve_of_intact (z := 0) .start hm hc.sizes (by rw [hc.stream]; rfl) hi
  have hw : IsCut m n (whole m n) := whole_cut
  obtain ⟨b', hb', -⟩ := serve_of_intact (z := 0) .start hm hw.sizes (by rw [hw.stream]; rfl)
    whole_intact
  rw [Bank.served, Bank.served, hb, hb']
  exact ⟨rfl, hpc⟩

-- The stream of one message, cut `i` bytes into the message and two bytes into the exit.
def cutAt (i : ℕ) : List (List UInt8) :=
  [(Record.money depositTen).bytes.take i, (Record.money depositTen).bytes.drop i,
    Record.exit.bytes.take 2, Record.exit.bytes.drop 2]

theorem cutAt_cut {i : ℕ} (h : 1 ≤ i) (h' : i < 128) : IsCut depositTen 1 (cutAt i) where
  sizes := by
    simp [cutAt, Record.bytes_length]
    omega
  stream := by
    rw [cutAt, List.flatten_cons, List.flatten_cons, ← List.append_assoc, List.take_append_drop]
    simp

set_option maxRecDepth 4000 in
theorem served_eq_whole_cut_behind_text :
    (Bank.served 0 (cutAt 10)).1 = 10 ∧
      (Bank.served 0 (cutAt 10)).1 = (Bank.served 0 (whole depositTen 1)).1 := by
  have hi : Intact depositTen 1 0 (cutAt 10) := by
    intro i hi
    obtain rfl : i = 0 := by omega
    exact ⟨[], _, _, rfl, rfl, by decide⟩
  have hc : IsCut depositTen 1 (cutAt 10) := cutAt_cut (by decide) (by decide)
  exact ⟨by decide, (served_eq_whole (by decide) (by decide) hc hi).left⟩

set_option maxRecDepth 4000 in
theorem served_broken : ¬ ∀ (m : Message) (n : ℕ) (money : ℤ) (cuts : List (List UInt8)),
    -2 ^ 31 ≤ money → money < 2 ^ 31 → IsCut m n cuts →
    (Bank.served money cuts).1 = (Bank.served money (whole m n)).1 := by
  intro h
  have hs := h depositTen 1 0 (cutAt 4) (by decide) (by decide) (cutAt_cut (by decide) (by decide))
  have hb : (Bank.served 0 (cutAt 4)).1 = 0 := by decide
  have hb' : (Bank.served 0 (whole depositTen 1)).1 = 10 := by decide
  rw [hb, hb'] at hs
  contradiction

end Atm
