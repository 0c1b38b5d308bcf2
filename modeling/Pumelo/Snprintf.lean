import Pumelo.FormatPieces

/-!
# Formatting into a buffer

`snprintf` and `vsnprintf`: `vprintfmt` with a `putch` that counts all characters, and stores those
for which the buffer has room.
-/

namespace Pumelo

open Foundation

namespace Putch

/-- `struct sprintbuf`, and the memory that `buf` points into. -/
structure Sprintbuf where
  mem : Bytes
  buf : Nat
  ebuf : Nat
  cnt : Int

/-- `sprintputch` -/
def sprintputch (ch : BitVec 32) (b : Sprintbuf) : Sprintbuf :=
  let b := { b with cnt := int32 (b.cnt + 1) }
  if b.buf < b.ebuf then
    { b with mem := b.mem.write8 b.buf (.ofBitVec (ch.setWidth 8)), buf := b.buf + 1 }
  else b

/-- `vsnprintf`, with the memory that it leaves. -/
def vsnprintf (mem : Bytes) (str size : Nat) (fmt : List UInt8) (ap : Stack) :
    Except Fault (Int × Bytes) :=
  let b : Sprintbuf := ⟨mem, str, (str + size + 2 ^ 32 - 1) % 2 ^ 32, 0⟩
  -- `-E_INVAL`
  if str = 0 ∨ b.ebuf < b.buf then .ok (-3, mem)
  else do
    let b ← vprintfmt sprintputch fmt ap b
    return (b.cnt, b.mem.write8 b.buf 0)

/-- The characters of an output as bytes. -/
def outBytes (out : List (BitVec 32)) : Bytes := fun i => .ofBitVec ((out.getD i 0).setWidth 8)

/-- All characters are counted, and the first ones are stored. -/
structure Sprintbuf.After (mem : Bytes) (str room : Nat) (out : List (BitVec 32)) (b : Sprintbuf) :
    Prop where
  mem : b.mem = mem.copy str (outBytes out) 0 (min out.length room)
  buf : b.buf = str + min out.length room
  ebuf : b.ebuf = str + room
  cnt : b.cnt = int32 out.length

section After

variable {mem : Bytes} {str room : Nat} {out : List (BitVec 32)} {b : Sprintbuf}

theorem outBytes_append (out : List (BitVec 32)) (ch : BitVec 32) {i : Nat}
    (inside : i < out.length) :
    outBytes (out ++ [ch]) i = outBytes out i := by
  rw [outBytes, outBytes, List.getD_append _ _ _ _ inside]

theorem outBytes_last (out : List (BitVec 32)) (ch : BitVec 32) :
    outBytes (out ++ [ch]) out.length = .ofBitVec (ch.setWidth 8) := by
  rw [outBytes, List.getD_append_right _ _ _ _ (Nat.le_refl _), Nat.sub_self]
  rfl

theorem int32_succ (count : Nat) : int32 (int32 count + 1) = int32 ((count + 1 : Nat) : Int) := by
  rw [int32, int32, int32, Int.bmod_add_bmod]
  rfl

/-- One more character. -/
theorem Sprintbuf.After.put (after : b.After mem str room out) (ch : BitVec 32) :
    (sprintputch ch b).After mem str room (out ++ [ch]) := by
  have length : (out ++ [ch]).length = out.length + 1 := List.length_append
  have counted : int32 (b.cnt + 1) = int32 ((out ++ [ch]).length : Nat) := by
    rw [after.cnt, int32_succ, length]
  have agree (size : Nat) (inside : size ≤ out.length) :
      mem.copy str (outBytes (out ++ [ch])) 0 size = mem.copy str (outBytes out) 0 size := by
    apply Bytes.copy_congr
    intro i lt
    rw [Nat.zero_add]
    exact outBytes_append out ch (Nat.lt_of_lt_of_le lt inside)
  by_cases fits : out.length < room
  · have full : min out.length room = out.length := Nat.min_eq_left (Nat.le_of_lt fits)
    have more : min (out ++ [ch]).length room = out.length + 1 := by
      rw [length]
      exact Nat.min_eq_left fits
    have stored : b.buf < b.ebuf := by
      rw [after.buf, after.ebuf, full]
      exact Nat.add_lt_add_left fits str
    have next : sprintputch ch b =
        ⟨b.mem.write8 b.buf (.ofBitVec (ch.setWidth 8)), b.buf + 1, b.ebuf, int32 (b.cnt + 1)⟩ :=
      if_pos stored
    rw [next]
    refine ⟨?_, ?_, after.ebuf, counted⟩
    · rw [after.mem, after.buf, full, more, ← agree _ (Nat.le_refl _), ← Bytes.copy_succ,
        Nat.zero_add,
        outBytes_last]
    · rw [after.buf, full, more, Nat.add_assoc]
  · have full : min out.length room = room := Nat.min_eq_right (Nat.not_lt.mp fits)
    have more : min (out ++ [ch]).length room = room := by
      rw [length]
      exact Nat.min_eq_right (Nat.le_succ_of_le (Nat.not_lt.mp fits))
    have dropped : ¬ b.buf < b.ebuf := by
      rw [after.buf, after.ebuf, full]
      exact Nat.lt_irrefl _
    have next : sprintputch ch b = ⟨b.mem, b.buf, b.ebuf, int32 (b.cnt + 1)⟩ := if_neg dropped
    rw [next]
    refine ⟨?_, ?_, after.ebuf, counted⟩
    · rw [after.mem, full, more, agree _ (Nat.not_lt.mp fits)]
    · rw [after.buf, full, more]

/-- The whole output. -/
theorem Sprintbuf.after_putAll (mem : Bytes) (str room : Nat) (out : List (BitVec 32)) :
    (putAll sprintputch out ⟨mem, str, str + room, 0⟩).After mem str room out := by
  induction out using List.reverseRecOn with
  | nil =>
      refine ⟨?_, ?_, rfl, rfl⟩
      · rw [List.length_nil, Nat.zero_min, Bytes.copy_zero]
        rfl
      · rw [List.length_nil, Nat.zero_min]
        rfl
  | append_singleton out ch ih =>
      rw [putAll_append]
      exact ih.put ch

end After

/-- The first characters of the output and a NUL, and nothing else. -/
structure Filled (mem mem' : Bytes) (str size : Nat) (out : List (BitVec 32)) : Prop where
  text : ∀ i < min out.length (size - 1), mem' (str + i) = .ofBitVec ((out.getD i 0).setWidth 8)
  nul : mem' (str + min out.length (size - 1)) = 0
  frame : ∀ query, query < str ∨ str + size ≤ query → mem' query = mem query

/-- A format whose full output is known. -/
theorem vsnprintf_filled {text : List UInt8} {ap : Stack} {out : List (BitVec 32)}
    (run : vprintfmt collect text ap [] = .ok out) (short : out.length < 2 ^ 31) (mem : Bytes)
    {str size : Nat} (object : str ≠ 0) (positive : 1 ≤ size) (inside : str + size ≤ 2 ^ 32) :
    ∃ mem', vsnprintf mem str size text ap = .ok (out.length, mem') ∧
      Filled mem mem' str size out := by
  have ebuf : (str + size + 2 ^ 32 - 1) % 2 ^ 32 = str + (size - 1) := by omega
  have after := Sprintbuf.after_putAll mem str (size - 1) out
  generalize left : putAll sprintputch out ⟨mem, str, str + (size - 1), 0⟩ = b at after
  refine ⟨b.mem.write8 b.buf 0, ?_, ?_, ?_, ?_⟩
  · have formatted : vprintfmt sprintputch text ap ⟨mem, str, str + (size - 1), 0⟩ = .ok b := by
      rw [vprintfmt_collect, run, ← left]
      rfl
    have count : b.cnt = out.length := by
      rw [after.cnt]
      exact int32_of_fits (by omega) (by omega)
    rw [vsnprintf, ebuf]
    dsimp only
    rw [if_neg (by omega), bind_ok formatted, count]
    rfl
  · intro i lt
    rw [after.buf, Bytes.write8_of_ne _ _ (by omega), after.mem,
      Bytes.copy_of_inside _ _ _ (by omega) (by omega), Nat.zero_add, Nat.add_sub_cancel_left]
    rfl
  · rw [after.buf]
    exact if_pos rfl
  · intro query outside
    rw [after.buf, Bytes.write8_of_ne _ _ (by omega), after.mem,
      Bytes.copy_of_outside _ _ (by omega)]

/-- Whatever the size of the buffer, the same output is counted, and its first characters are
left. -/
theorem vsnprintf_bounded {text : List UInt8} (ended : 0 ∉ text) {ap : Stack}
    (supplied : wordsTaken text ≤ ap.length) :
    ∃ out, vprintfmt collect text ap [] = .ok out ∧
      (out.length < 2 ^ 31 → ∀ mem str size, str ≠ 0 → 1 ≤ size → str + size ≤ 2 ^ 32 →
        ∃ mem', vsnprintf mem str size text ap = .ok (out.length, mem') ∧
          Filled mem mem' str size out) := by
  obtain ⟨out, run⟩ := runPieces_ok collect (pieces_wellformed text) supplied []
  rw [← vprintfmt_pieces collect ended] at run
  refine ⟨out, run, ?_⟩
  intro short mem str size object positive inside
  exact vsnprintf_filled run short mem object positive inside

/-- `%d` of 42. -/
theorem vsnprintf_bounded_42 : ∃ out, vprintfmt collect (bytes "%d") [⟨42, []⟩] [] = .ok out ∧
    (out.length < 2 ^ 31 → ∀ mem str size, str ≠ 0 → 1 ≤ size → str + size ≤ 2 ^ 32 →
      ∃ mem', vsnprintf mem str size (bytes "%d") [⟨42, []⟩] = .ok (out.length, mem') ∧
        Filled mem mem' str size out) :=
  vsnprintf_bounded (by decide) (by decide +kernel)

end Putch

end Pumelo
