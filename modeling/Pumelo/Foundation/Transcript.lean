import Mathlib.Logic.Function.Basic
import Mathlib.Tactic.Common

/-!
# Transcripts of several writers

Writers write messages to one output, character by character.  The output is unbroken where it
is made of whole messages and the first part of one more.
-/

namespace Foundation

universe u v w

/-- The messages that each writer began, what is left of its last one, and the output. -/
structure Transcript (ι : Type u) (μ : Type v) (α : Type w) where
  called : ι → List μ
  left : ι → List α
  output : List α

namespace Transcript

variable {ι : Type u} {μ : Type v} {α : Type w} [DecidableEq ι] (text : μ → List α)
  (t : Transcript ι μ α)

/-- A writer begins a message. -/
def call (writer : ι) (message : μ) : Transcript ι μ α :=
  { t with
    called := Function.update t.called writer (t.called writer ++ [message])
    left := Function.update t.left writer (text message) }

/-- A writer writes a character. -/
def write (writer : ι) (char : α) (rest : List α) : Transcript ι μ α :=
  { t with
    left := Function.update t.left writer rest
    output := t.output ++ [char] }

/-- A part of the writer's message was written, and a part is left. -/
def Partial (writer : ι) : Prop :=
  ∃ before message, t.called writer = before ++ [message] ∧ t.left writer ≠ [] ∧
    (t.left writer).length < (text message).length

/-- The messages of one writer. -/
def ofWriter (order : List (ι × μ)) (writer : ι) : List μ :=
  (order.filter (·.1 = writer)).map Prod.snd

/-- The writer's messages are all written, or its last one is left as a whole. -/
def Settled (order : List (ι × μ)) (writer : ι) : Prop :=
  (t.left writer = [] ∧ t.called writer = ofWriter order writer) ∨
    ∃ message, t.called writer = ofWriter order writer ++ [message] ∧ t.left writer ≠ [] ∧
      t.left writer = text message

/-- The output has the messages of `order`, and then a part of the one that `writing` has begun. -/
structure Transcribes (order : List (ι × μ)) (part : List α) (writing : ι) : Prop where
  output : t.output = (order.flatMap fun entry => text entry.2) ++ part
  settled : ∀ writer, part = [] ∨ writer ≠ writing → t.Settled text order writer
  begun : part ≠ [] → ∃ message, t.called writing = ofWriter order writing ++ [message] ∧
    t.left writing ≠ [] ∧ text message = part ++ t.left writing

/-- Whole messages, and a part of one more at the end; the messages of each writer are there in
the order in which they were begun. -/
def Unbroken : Prop := ∃ order part writing, t.Transcribes text order part writing

variable {text t} {order : List (ι × μ)} {part : List α} {writing writer : ι} {message : μ}

theorem ofWriter_append_self (order : List (ι × μ)) (writer : ι) (message : μ) :
    ofWriter (order ++ [(writer, message)]) writer = ofWriter order writer ++ [message] := by
  simp [ofWriter]

theorem ofWriter_append_of_ne {other : ι} (ne : other ≠ writer) :
    ofWriter (order ++ [(writer, message)]) other = ofWriter order other := by
  simp [ofWriter, Ne.symm ne]

/-- A writer that has nothing left has all its messages in the output. -/
theorem Transcribes.all (transcribes : t.Transcribes text order part writing)
    (idle : t.left writer = []) : t.called writer = ofWriter order writer := by
  have away : part = [] ∨ writer ≠ writing := by
    by_contra mid
    obtain ⟨some, rfl⟩ := not_or.mp mid |>.imp_right not_not.mp
    obtain ⟨_, -, unfinished, -⟩ := transcribes.begun some
    exact unfinished idle
  rcases transcribes.settled writer away with ⟨-, all⟩ | ⟨_, -, unfinished, -⟩
  · exact all
  · exact absurd idle unfinished

/-- Once nobody has anything left, the output is the messages one behind the other. -/
theorem Transcribes.complete (transcribes : t.Transcribes text order part writing)
    (done : ∀ writer, t.left writer = []) :
    t.output = (order.flatMap fun entry => text entry.2) ∧
      ∀ writer, t.called writer = ofWriter order writer := by
  have none : part = [] := by
    by_contra some
    obtain ⟨_, -, unfinished, -⟩ := transcribes.begun some
    exact unfinished (done writing)
  constructor
  · rw [transcribes.output, none, List.append_nil]
  · intro writer
    exact transcribes.all (done writer)

/-- What one writer writes leaves the messages of the others as they are. -/
theorem partial_write_of_ne {other : ι} {char : α} {rest : List α} (ne : other ≠ writer) :
    (t.write writer char rest).Partial text other ↔ t.Partial text other := by
  have left : (t.write writer char rest).left other = t.left other := Function.update_of_ne ne ..
  rw [Partial, Partial, left]
  rfl

/-- A writer that has only begun, or not even that, is not affected by another one's message. -/
theorem Settled.other {t' : Transcript ι μ α} {order' : List (ι × μ)}
    (settled : t.Settled text order writer) (called : t'.called writer = t.called writer)
    (left : t'.left writer = t.left writer)
    (same : ofWriter order' writer = ofWriter order writer) :
    t'.Settled text order' writer := by
  rw [Settled, called, left, same]
  exact settled

theorem Unbroken.initial [Nonempty ι] (called : ∀ writer, t.called writer = [])
    (left : ∀ writer, t.left writer = []) (output : t.output = []) : t.Unbroken text := by
  refine ⟨[], [], Classical.arbitrary ι, output, ?_, fun some => absurd rfl some⟩
  intro writer _
  exact .inl ⟨left writer, called writer⟩

/-- The writer that is about to write: either nobody is in the middle of a message and it has
its whole message left, or it is the one that goes on. -/
theorem Transcribes.next (transcribes : t.Transcribes text order part writing)
    (some : t.left writer ≠ []) (alone : ∀ other, other ≠ writer → ¬ t.Partial text other) :
    (∀ other, other ≠ writer → t.Settled text order other) ∧
      ∃ message, t.called writer = ofWriter order writer ++ [message] ∧
        text message = part ++ t.left writer := by
  by_cases none : part = []
  · refine ⟨fun other _ => transcribes.settled other (.inl none), ?_⟩
    rcases transcribes.settled writer (.inl none) with ⟨empty, -⟩ | ⟨message, called, -, whole⟩
    · exact absurd empty some
    · refine ⟨message, called, ?_⟩
      rw [none, List.nil_append, whole]
  · obtain ⟨message, called, unfinished, whole⟩ := transcribes.begun none
    by_cases self : writer = writing
    · subst self
      exact ⟨fun other ne => transcribes.settled other (.inr ne), message, called, whole⟩
    · have shorter : (t.left writing).length < (text message).length := by
        rw [whole, List.length_append]
        exact Nat.lt_add_of_pos_left (List.length_pos_iff.mpr none)
      exact absurd ⟨_, message, called, unfinished, shorter⟩ (alone writing (Ne.symm self))

/-- A character of a message goes behind the ones before it, if no other message is begun. -/
theorem Unbroken.write {char : α} {rest : List α} (unbroken : t.Unbroken text)
    (left : t.left writer = char :: rest)
    (alone : ∀ other, other ≠ writer → ¬ t.Partial text other) :
    (t.write writer char rest).Unbroken text := by
  obtain ⟨order, part, writing, transcribes⟩ := unbroken
  obtain ⟨settled, message, called, whole⟩ :=
    transcribes.next (by rw [left]; exact List.cons_ne_nil _ _) alone
  have whole : text message = (part ++ [char]) ++ rest := by
    rw [whole, left, List.append_assoc, List.singleton_append]
  have kept (other : ι) (ne : other ≠ writer) :
      (t.write writer char rest).left other = t.left other := Function.update_of_ne ne ..
  have own : (t.write writer char rest).left writer = rest := Function.update_self ..
  have output : (t.write writer char rest).output =
      (order.flatMap fun entry => text entry.2) ++ (part ++ [char]) := by
    rw [← List.append_assoc, ← transcribes.output]
    rfl
  have begun : part ++ [char] ≠ [] :=
    List.append_ne_nil_of_right_ne_nil _ (List.cons_ne_nil _ _)
  by_cases last : rest = []
  · -- the message is whole
    refine ⟨order ++ [(writer, message)], [], writer, ?_, ?_, fun some => absurd rfl some⟩
    · rw [output, List.append_nil, List.flatMap_append, List.flatMap_singleton, whole, last,
        List.append_nil]
    · intro other _
      by_cases self : other = writer
      · subst self
        refine .inl ⟨own.trans last, ?_⟩
        rw [ofWriter_append_self]
        exact called
      · exact (settled other self).other rfl (kept other self) (ofWriter_append_of_ne self)
  · refine ⟨order, part ++ [char], writer, output, ?_, fun _ => ⟨message, called, ?_, ?_⟩⟩
    · intro other away
      have ne : other ≠ writer := away.resolve_left begun
      exact (settled other ne).other rfl (kept other ne) rfl
    · rw [own]
      exact last
    · rw [own]
      exact whole

/-- A message is begun; one without characters is there at once. -/
theorem Unbroken.call (unbroken : t.Unbroken text) (idle : t.left writer = []) (message : μ) :
    (t.call text writer message).Unbroken text := by
  obtain ⟨order, part, writing, transcribes⟩ := unbroken
  have left (other : ι) (ne : other ≠ writer) :
      (t.call text writer message).left other = t.left other := Function.update_of_ne ne ..
  have called (other : ι) (ne : other ≠ writer) :
      (t.call text writer message).called other = t.called other := Function.update_of_ne ne ..
  have own : (t.call text writer message).left writer = text message := Function.update_self ..
  have begins : (t.call text writer message).called writer = ofWriter order writer ++
      [message] := by
    rw [← transcribes.all idle]
    exact Function.update_self ..
  have elsewhere : part ≠ [] → writing ≠ writer := by
    rintro some rfl
    obtain ⟨_, -, unfinished, -⟩ := transcribes.begun some
    exact unfinished idle
  by_cases empty : text message = []
  · refine ⟨order ++ [(writer, message)], part, writing, ?_, ?_, ?_⟩
    · rw [List.flatMap_append, List.flatMap_singleton, empty, List.append_nil]
      exact transcribes.output
    · intro other away
      by_cases self : other = writer
      · subst self
        refine .inl ⟨own.trans empty, ?_⟩
        rw [ofWriter_append_self]
        exact begins
      · exact (transcribes.settled other away).other (called other self) (left other self)
          (ofWriter_append_of_ne self)
    · intro some
      have ne := elsewhere some
      rw [called writing ne, left writing ne, ofWriter_append_of_ne ne]
      exact transcribes.begun some
  · refine ⟨order, part, writing, transcribes.output, ?_, ?_⟩
    · intro other away
      by_cases self : other = writer
      · subst self
        refine .inr ⟨message, begins, ?_, own⟩
        rw [own]
        exact empty
      · exact (transcribes.settled other away).other (called other self) (left other self) rfl
    · intro some
      have ne := elsewhere some
      rw [called writing ne, left writing ne]
      exact transcribes.begun some

end Transcript

end Foundation
