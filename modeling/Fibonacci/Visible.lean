set_option autoImplicit false

/-! # The visible part of a text

Text that does not go to a terminal is written without what only a terminal understands. Of the
ASCII control characters, delete among them, it keeps tab, line feed, form feed and carriage return,
the *layout characters*. The control characters beyond ASCII, from U+0080 to U+009F, it shows like
all other characters. It leaves out the sequences that the escape character starts:

* a control sequence, after `[`, up to a character from `@` to `~`;
* a command, after `]`, up to the bell;
* a device control string, after `P`: a header of parameters and intermediate characters, and
  a body, which starts after a character from `@` to `~` or after a misplaced parameter;
* a string, after `X`, `^` or `_`, which is all body;
* any other escape sequence: intermediate characters up to a character from `0` to `~`.

A body ends after a character whose encoding holds the octet `9C`. The escape character starts
a new sequence inside every sequence, and cancel and substitute end every sequence. Inside a
sequence, characters that play no part in it are passed over.

A layout character interrupts a control sequence or an escape sequence. It is shown, and so is
the visible text after it, until an ASCII control character that is not shown takes the sequence
up again. A character beyond ASCII in that text gives the sequence up.

The text is read one character at a time (`State.next`), and `State.shows` says whether the
character read is part of what is visible.
-/

namespace Fibonacci

namespace Visible

/-! ## Characters -/

/-- The ASCII control characters that lay out a text. -/
def isLayout (c : Char) : Bool := decide (c ∈ ['\t', '\n', '\x0c', '\r'])

/-- Characters that are shown outside of sequences. -/
def isShown (c : Char) : Bool := isLayout c || decide (' ' ≤ c ∧ c ≠ '\x7f')

/-- Characters with an encoding of more than one octet. -/
def isBeyondASCII (c : Char) : Bool := decide ('\x7f' < c)

/-- The characters that may stand before the end of an escape sequence. -/
def isIntermediate (c : Char) : Bool := decide (' ' ≤ c ∧ c ≤ '/')

/-- The characters that parameters are written with. -/
def isParameter (c : Char) : Bool := decide ('0' ≤ c ∧ c ≤ '?')

/-- The characters that end a control sequence. -/
def isFinal (c : Char) : Bool := decide ('@' ≤ c ∧ c ≤ '~')

/-- The characters that end a body. -/
def isTerminator (c : Char) : Bool := (String.utf8EncodeChar c).contains 0x9c

/-! ## Sequences -/

/-- The part of a sequence that has been read. -/
inductive Sequence where
  /-- The escape character. -/
  | escape
  /-- The escape character and intermediate characters. -/
  | intermediate
  /-- A control sequence. -/
  | control
  /-- A device control string before its header. -/
  | deviceEntry
  /-- A device control string with parameters in its header. -/
  | deviceParameter
  /-- A device control string with intermediate characters in its header. -/
  | deviceIntermediate
  /-- The body of a device control string, or a string. -/
  | body
  /-- A command. -/
  | command
  deriving DecidableEq, Repr

/-- A place in a text. -/
inductive State where
  /-- In visible text, which may interrupt a sequence. -/
  | shown (interrupted : Option Sequence)
  /-- In a sequence. -/
  | hidden (sequence : Sequence)
  deriving DecidableEq, Repr

/-- The sequences that a layout character interrupts. -/
def Sequence.interruptible : Sequence → Bool
  | .escape | .intermediate | .control => true
  | _ => false

/-- The place after a character of a sequence that neither interrupts nor cancels it. -/
def Sequence.next (q : Sequence) (c : Char) : State :=
  match q with
  | .escape =>
    if c = '[' then .hidden .control
    else if c = ']' then .hidden .command
    else if c = 'P' then .hidden .deviceEntry
    else if c ∈ ['X', '^', '_'] then .hidden .body
    else if isIntermediate c then .hidden .intermediate
    else if isParameter c || isFinal c then .shown none
    else .hidden .escape
  | .intermediate =>
    if isParameter c || isFinal c then .shown none else .hidden .intermediate
  | .control => if isFinal c then .shown none else .hidden .control
  | .deviceEntry =>
    if isFinal c then .hidden .body
    else if isIntermediate c then .hidden .deviceIntermediate
    else if isParameter c then .hidden .deviceParameter
    else .hidden .deviceEntry
  | .deviceParameter =>
    if isFinal c || decide ('<' ≤ c ∧ c ≤ '?') then .hidden .body
    else if isIntermediate c then .hidden .deviceIntermediate
    else .hidden .deviceParameter
  | .deviceIntermediate =>
    if isParameter c || isFinal c then .hidden .body else .hidden .deviceIntermediate
  | .body => if isTerminator c then .shown none else .hidden .body
  | .command => if c = '\x07' then .shown none else .hidden .command

/-! ## Texts -/

/-- The place after visible text that an ASCII control character ends. -/
def resume : Option Sequence → State
  | none => .shown none
  | some q => .hidden q

/-- The place after a character. -/
def State.next (s : State) (c : Char) : State :=
  if c = '\x1b' then .hidden .escape
  else if c = '\x18' ∨ c = '\x1a' then .shown none
  else
    match s with
    | .shown q =>
      if isBeyondASCII c then .shown none else if isShown c then .shown q else resume q
    | .hidden q => if q.interruptible && isLayout c then .shown (some q) else q.next c

/-- Whether a character is shown at a place. -/
def State.shows (s : State) (c : Char) : Bool :=
  match s with
  | .shown _ => isShown c
  | .hidden q => q.interruptible && isLayout c

/-- The visible part of a text that is read on from a place. -/
def partFrom : State → List Char → List Char
  | _, [] => []
  | s, c :: rest => if s.shows c then c :: partFrom (s.next c) rest else partFrom (s.next c) rest

/-- A shown character outside of sequences leads to visible text again. -/
theorem next_shown {c : Char} (h : isShown c = true) (q : Option Sequence) :
    ∃ r, (State.shown q).next c = .shown r := by
  have hEscape : c ≠ '\x1b' := by
    rintro rfl
    exact absurd h (by decide)
  have hCancel : ¬(c = '\x18' ∨ c = '\x1a') := by
    rintro (rfl | rfl) <;> exact absurd h (by decide)
  by_cases hBeyond : isBeyondASCII c = true
  · exact ⟨none, by simp [State.next, hEscape, hCancel, hBeyond]⟩
  · exact ⟨q, by simp [State.next, hEscape, hCancel, hBeyond, h]⟩

theorem partFrom_of_isShown {s : List Char} (h : ∀ c ∈ s, isShown c = true)
    (q : Option Sequence) : partFrom (.shown q) s = s := by
  induction s generalizing q with
  | nil => rfl
  | cons c rest ih =>
    have hc : isShown c = true := h c List.mem_cons_self
    obtain ⟨r, hr⟩ := next_shown hc q
    have hrest := ih (fun d hd => h d (List.mem_cons_of_mem c hd)) r
    rw [partFrom, hr, hrest]
    exact if_pos hc

theorem isShown_of_shows {s : State} {c : Char} (h : s.shows c = true) : isShown c = true := by
  cases s with
  | shown q => exact h
  | hidden q =>
      obtain ⟨-, hLayout⟩ := Bool.and_eq_true_iff.mp h
      rw [isShown, hLayout, Bool.true_or]

theorem isShown_of_mem_partFrom {s : List Char} {st : State} {c : Char}
    (h : c ∈ partFrom st s) : isShown c = true := by
  induction s generalizing st with
  | nil => cases h
  | cons d rest ih =>
      rw [partFrom] at h
      split at h
      next hd =>
        rcases List.mem_cons.mp h with rfl | hc
        · exact isShown_of_shows hd
        · exact ih hc
      next => exact ih h

end Visible

/-- The visible part of a text. -/
def visible (s : String) : String :=
  String.ofList (Visible.partFrom (.shown none) s.toList)

/-- A text of shown characters is visible as it is. -/
theorem visible_eq_self {s : String} (h : ∀ c ∈ s.toList, Visible.isShown c = true) :
    visible s = s := by
  rw [visible, Visible.partFrom_of_isShown h, String.ofList_toList]

theorem isShown_of_mem_visible {s : String} {c : Char} (h : c ∈ (visible s).toList) :
    Visible.isShown c = true := by
  rw [visible, String.toList_ofList] at h
  exact Visible.isShown_of_mem_partFrom h

theorem visible_visible (s : String) : visible (visible s) = visible s :=
  visible_eq_self fun _ hc => isShown_of_mem_visible hc

end Fibonacci
