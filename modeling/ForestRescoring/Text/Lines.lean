/-
# Lines

A line ends at a newline; what follows the last newline is a line too, unless it is empty.  The
cut is the same for characters and for bytes, so `lines` takes the newline as an argument.

A file is cut into lines before any of its bytes are decoded: each line is decoded by itself
(`decodedLines`), so that an invalid byte spoils its own line and none before it.
-/
namespace ForestRescoring.Text

variable {α : Type} [DecidableEq α]

/-- Puts an element in front of the first line, opening one if there is none. -/
def consFirst (a : α) : List (List α) → List (List α)
  | [] => [[a]]
  | l :: ls => (a :: l) :: ls

/-- The lines of a text, without their newlines. -/
def lines (newline : α) (s : List α) : List (List α) :=
  s.foldr (fun a ls => if a = newline then [] :: ls else consFirst a ls) []

@[simp] theorem lines_nil (newline : α) : lines newline [] = [] := rfl

/-- An element ends a line, or joins the line that begins behind it. -/
theorem lines_cons (newline a : α) (s : List α) :
    lines newline (a :: s) =
      if a = newline then [] :: lines newline s else consFirst a (lines newline s) := rfl

/-- The newline ends a line, whatever follows. -/
theorem lines_append_newline {newline : α} {l : List α} (h : newline ∉ l) (s : List α) :
    lines newline (l ++ newline :: s) = l :: lines newline s := by
  induction l with
  | nil => simp [lines_cons]
  | cons a l ih =>
    have ha : a ≠ newline := fun e => h (by simp [e])
    simp [lines_cons, ha, ih fun hm => h (by simp [hm]), consFirst]

/-- The lines of a string. -/
def linesOf (s : String) : List String := (lines '\n' s.toList).map String.ofList

/-- The string that bytes encode, if they encode one. -/
def decode (bytes : List UInt8) : Option String := String.fromUTF8? ⟨bytes.toArray⟩

/-- The lines of a file's bytes, each decoded by itself; `none` stands for a line that encodes
no string. -/
def decodedLines (bytes : ByteArray) : List (Option String) :=
  (lines 10 bytes.data.toList).map decode

end ForestRescoring.Text
