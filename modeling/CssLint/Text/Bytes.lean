/-!
Byte offsets into a text.

A text is a list of characters, and places in it are counted in the bytes of
its UTF-8 form. A place inside a character stands for the place behind it.
-/

namespace CssLint.Text

/-- The number of bytes of the text in UTF-8. -/
def byteCount (text : List Char) : Nat :=
  text.foldl (fun count c => count + c.utf8Size) 0

private theorem foldl_utf8Size (text : List Char) (start : Nat) :
    text.foldl (fun count c => count + c.utf8Size) start = start + byteCount text := by
  induction text generalizing start with
  | nil => rfl
  | cons c text inductionHypothesis =>
      simp only [byteCount, List.foldl_cons]
      rw [inductionHypothesis, inductionHypothesis (0 + c.utf8Size)]
      omega

@[simp] theorem byteCount_nil : byteCount [] = 0 := rfl

@[simp] theorem byteCount_cons (c : Char) (text : List Char) :
    byteCount (c :: text) = c.utf8Size + byteCount text := by
  rw [byteCount, List.foldl_cons, foldl_utf8Size, Nat.zero_add]

@[simp] theorem byteCount_append (left right : List Char) :
    byteCount (left ++ right) = byteCount left + byteCount right := by
  induction left with
  | nil => simp
  | cons c left inductionHypothesis =>
      simp only [List.cons_append, byteCount_cons, inductionHypothesis]
      omega

/-! ## Slices -/

/-- The characters of the text that start at or after byte `count`. -/
def dropBytes : Nat → List Char → List Char
  | _, [] => []
  | count, c :: text => if count = 0 then c :: text else dropBytes (count - c.utf8Size) text

/-- The characters of the text that start before byte `count`. -/
def takeBytes : Nat → List Char → List Char
  | _, [] => []
  | count, c :: text => if count = 0 then [] else c :: takeBytes (count - c.utf8Size) text

/-- The characters of the text from byte `start` up to byte `stop`. -/
def slice (text : List Char) (start stop : Nat) : List Char :=
  takeBytes (stop - start) (dropBytes start text)

theorem dropBytes_byteCount_append (left right : List Char) :
    dropBytes (byteCount left) (left ++ right) = right := by
  induction left with
  | nil => cases right <;> rfl
  | cons c left inductionHypothesis =>
      have positive : c.utf8Size ≠ 0 := Nat.ne_of_gt (Char.utf8Size_pos c)
      simp [dropBytes, positive, inductionHypothesis]

theorem takeBytes_byteCount_append (left right : List Char) :
    takeBytes (byteCount left) (left ++ right) = left := by
  induction left with
  | nil => cases right <;> rfl
  | cons c left inductionHypothesis =>
      have positive : c.utf8Size ≠ 0 := Nat.ne_of_gt (Char.utf8Size_pos c)
      simp [takeBytes, positive, inductionHypothesis]

/-- What `text` holds in front of `rest`, where `rest` is the end of `text`. -/
def before (text rest : List Char) : List Char :=
  text.take (text.length - rest.length)

@[simp] theorem before_append (read rest : List Char) : before (read ++ rest) rest = read := by
  simp [before]

end CssLint.Text
