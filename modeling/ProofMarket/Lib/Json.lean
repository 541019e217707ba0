import Mathlib.Data.List.TakeWhile

/-!
# JSON text

Values, their text with one item a line and two spaces a level, and a parser that reads it back.
The values are those that records of numbers and byte strings are written with: natural numbers,
strings without characters that have to be escaped, arrays and objects.

* `parse_pretty` — **what was printed is parsed**, for every value.

Numbers have any size; whoever reads one checks that it fits.
-/

inductive Json where
  | num (n : Nat)
  | str (s : List Char)
  | arr (items : List Json)
  | obj (fields : List (List Char × Json))

namespace Json

/-! ## Printing -/

/-- A character that stands for itself in a string. -/
def plainChar (c : Char) : Bool := c ≠ '"' && c ≠ '\\' && 32 ≤ c.toNat

def quote (s : List Char) : List Char := '"' :: (s ++ ['"'])

/-- The end of a line, and the indentation of the next one at depth `d`. -/
def newline (d : Nat) : List Char := '\n' :: List.replicate (2 * d) ' '

mutual
/-- A value at depth `d`. -/
def print (d : Nat) : Json → List Char
  | num n => Nat.toDigits 10 n
  | str s => quote s
  | arr [] => ['[', ']']
  | arr (v :: vs) => '[' :: (newline (d + 1) ++ print (d + 1) v ++ printItems d vs)
  | obj [] => ['{', '}']
  | obj (f :: fs) => '{' :: (newline (d + 1) ++ printField d f ++ printFields d fs)

/-- The rest of an array. -/
def printItems (d : Nat) : List Json → List Char
  | [] => newline d ++ [']']
  | v :: vs => ',' :: (newline (d + 1) ++ print (d + 1) v ++ printItems d vs)

/-- One field of an object. -/
def printField (d : Nat) : List Char × Json → List Char
  | (key, v) => quote key ++ (':' :: ' ' :: print (d + 1) v)

/-- The rest of an object. -/
def printFields (d : Nat) : List (List Char × Json) → List Char
  | [] => newline d ++ ['}']
  | f :: fs => ',' :: (newline (d + 1) ++ printField d f ++ printFields d fs)
end

/-- The text of a value. -/
def pretty (v : Json) : List Char := print 0 v

mutual
/-- Its strings need no escapes. -/
def Plain : Json → Prop
  | num _ => True
  | str s => s.all plainChar = true
  | arr vs => PlainItems vs
  | obj fs => PlainFields fs

def PlainItems : List Json → Prop
  | [] => True
  | v :: vs => Plain v ∧ PlainItems vs

def PlainField : List Char × Json → Prop
  | (key, v) => key.all plainChar = true ∧ Plain v

def PlainFields : List (List Char × Json) → Prop
  | [] => True
  | f :: fs => PlainField f ∧ PlainFields fs
end

/-! ## Parsing -/

def isSpace (c : Char) : Bool := c = ' ' || c = '\n' || c = '\t' || c = '\r'

def skipSpace (cs : List Char) : List Char := cs.dropWhile isSpace

/-- A string up to its closing quote. -/
def parseString (cs : List Char) : Option (List Char × List Char) :=
  match cs.dropWhile plainChar with
  | '"' :: rest => some (cs.takeWhile plainChar, rest)
  | _ => none

/-- A number without leading zeros. -/
def parseNum (cs : List Char) : Option (Nat × List Char) :=
  let digits := cs.takeWhile Char.isDigit
  let n := Nat.ofDigitChars 10 digits 0
  if Nat.toDigits 10 n = digits then some (n, cs.dropWhile Char.isDigit) else none

mutual
/-- A value; `fuel` bounds how deep and how long it is. -/
def parseValue : Nat → List Char → Option (Json × List Char)
  | 0, _ => none
  | fuel + 1, cs =>
    match skipSpace cs with
    | '[' :: cs =>
      match skipSpace cs with
      | ']' :: cs => some (arr [], cs)
      | cs => do
        let (v, cs) ← parseValue fuel cs
        let (vs, cs) ← parseItems fuel cs
        return (arr (v :: vs), cs)
    | '{' :: cs =>
      match skipSpace cs with
      | '}' :: cs => some (obj [], cs)
      | cs => do
        let (f, cs) ← parseField fuel cs
        let (fs, cs) ← parseFields fuel cs
        return (obj (f :: fs), cs)
    | '"' :: cs => do
      let (s, cs) ← parseString cs
      return (str s, cs)
    | cs => do
      let (n, cs) ← parseNum cs
      return (num n, cs)

def parseItems : Nat → List Char → Option (List Json × List Char)
  | 0, _ => none
  | fuel + 1, cs =>
    match skipSpace cs with
    | ']' :: cs => some ([], cs)
    | ',' :: cs => do
      let (v, cs) ← parseValue fuel cs
      let (vs, cs) ← parseItems fuel cs
      return (v :: vs, cs)
    | _ => none

def parseField : Nat → List Char → Option ((List Char × Json) × List Char)
  | 0, _ => none
  | fuel + 1, cs =>
    match skipSpace cs with
    | '"' :: cs => do
      let (key, cs) ← parseString cs
      match skipSpace cs with
      | ':' :: cs => do
        let (v, cs) ← parseValue fuel cs
        return ((key, v), cs)
      | _ => none
    | _ => none

def parseFields : Nat → List Char → Option (List (List Char × Json) × List Char)
  | 0, _ => none
  | fuel + 1, cs =>
    match skipSpace cs with
    | '}' :: cs => some ([], cs)
    | ',' :: cs => do
      let (f, cs) ← parseField fuel cs
      let (fs, cs) ← parseFields fuel cs
      return (f :: fs, cs)
    | _ => none
end

/-- A text that holds one value. -/
def parse (cs : List Char) : Option Json := do
  let (v, rest) ← parseValue (cs.length + 1) cs
  if skipSpace rest = [] then some v else none

/-! ## Reading back -/

variable {cs rest : List Char} {d fuel n : Nat}

theorem skipSpace_newline (d : Nat) (cs : List Char) :
    skipSpace (newline d ++ cs) = skipSpace cs := by
  have hspaces : ∀ k, skipSpace (List.replicate k ' ' ++ cs) = skipSpace cs := by
    intro k
    induction k with
    | zero => rfl
    | succ k ih => exact ih
  exact hspaces (2 * d)

theorem skipSpace_cons {c : Char} (hc : isSpace c = false) : skipSpace (c :: cs) = c :: cs :=
  List.dropWhile_cons_of_neg (by simp [hc])

theorem parseValue_newline (d fuel : Nat) (cs : List Char) :
    parseValue fuel (newline d ++ cs) = parseValue fuel cs := by
  cases fuel with
  | zero => rfl
  | succ fuel => rw [parseValue, parseValue, skipSpace_newline]

theorem parseField_newline (d fuel : Nat) (cs : List Char) :
    parseField fuel (newline d ++ cs) = parseField fuel cs := by
  cases fuel with
  | zero => rfl
  | succ fuel => rw [parseField, parseField, skipSpace_newline]

theorem parseValue_arr {c : Char} {cs' : List Char} (h : skipSpace cs = c :: cs') (hc : c ≠ ']') :
    parseValue (fuel + 1) ('[' :: cs) = do
      let (v, rest) ← parseValue fuel (c :: cs')
      let (vs, rest) ← parseItems fuel rest
      return (arr (v :: vs), rest) := by
  have hunfold : parseValue (fuel + 1) ('[' :: cs) =
      match skipSpace cs with
      | ']' :: cs => some (arr [], cs)
      | cs => do
        let (v, rest) ← parseValue fuel cs
        let (vs, rest) ← parseItems fuel rest
        return (arr (v :: vs), rest) := rfl
  rw [hunfold, h]
  split
  · rename_i heq
    cases heq
    exact absurd rfl hc
  · rfl

theorem parseValue_obj {c : Char} {cs' : List Char} (h : skipSpace cs = c :: cs') (hc : c ≠ '}') :
    parseValue (fuel + 1) ('{' :: cs) = do
      let (f, rest) ← parseField fuel (c :: cs')
      let (fs, rest) ← parseFields fuel rest
      return (obj (f :: fs), rest) := by
  have hunfold : parseValue (fuel + 1) ('{' :: cs) =
      match skipSpace cs with
      | '}' :: cs => some (obj [], cs)
      | cs => do
        let (f, rest) ← parseField fuel cs
        let (fs, rest) ← parseFields fuel rest
        return (obj (f :: fs), rest) := rfl
  rw [hunfold, h]
  split
  · rename_i heq
    cases heq
    exact absurd rfl hc
  · rfl

theorem parseField_key {key : List Char} {rest : List Char}
    (h : parseString cs = some (key, ':' :: rest)) :
    parseField (fuel + 1) ('"' :: cs) = do
      let (v, rest) ← parseValue fuel rest
      return ((key, v), rest) := by
  have hunfold : parseField (fuel + 1) ('"' :: cs) = (parseString cs).bind fun p =>
      match skipSpace p.2 with
      | ':' :: cs => do
        let (v, rest) ← parseValue fuel cs
        return ((p.1, v), rest)
      | _ => none := rfl
  rw [hunfold, h]
  rfl

theorem parseString_quote {s : List Char} (hs : s.all plainChar = true) (rest : List Char) :
    parseString (s ++ '"' :: rest) = some (s, rest) := by
  have hall : ∀ c ∈ s, plainChar c = true := List.all_eq_true.1 hs
  have hquote : ¬ plainChar '"' = true := by decide
  unfold parseString
  rw [List.dropWhile_append_of_pos hall, List.takeWhile_append_of_pos hall,
    List.dropWhile_cons_of_neg hquote, List.takeWhile_cons_of_neg hquote, List.append_nil]
  rfl

/-- What follows a value does not go on with a digit. -/
def Ends (rest : List Char) : Prop := ∀ c ∈ rest.head?, c.isDigit = false

theorem parseNum_toDigits (hrest : Ends rest) (n : Nat) :
    parseNum (Nat.toDigits 10 n ++ rest) = some (n, rest) := by
  have hdigits : ∀ c ∈ Nat.toDigits 10 n, c.isDigit = true :=
    fun c hc => Nat.isDigit_of_mem_toDigits (by decide) (by decide) hc
  have hstop : rest.takeWhile Char.isDigit = [] ∧ rest.dropWhile Char.isDigit = rest := by
    cases rest with
    | nil => exact ⟨rfl, rfl⟩
    | cons c rest =>
      have hc : ¬ c.isDigit = true := by simp [hrest c rfl]
      exact ⟨List.takeWhile_cons_of_neg hc, List.dropWhile_cons_of_neg hc⟩
  unfold parseNum
  rw [List.takeWhile_append_of_pos hdigits, List.dropWhile_append_of_pos hdigits, hstop.1, hstop.2,
    List.append_nil]
  simp

theorem exists_print (d : Nat) (v : Json) : ∃ c cs, print d v = c :: cs ∧ isSpace c = false ∧
    c ≠ ']' ∧ c ≠ '}' := by
  cases v with
  | num n =>
    rw [print]
    cases hn : Nat.toDigits 10 n with
    | nil => exact absurd hn Nat.toDigits_ne_nil
    | cons c cs =>
      have hc : c.isDigit = true :=
        Nat.isDigit_of_mem_toDigits (b := 10) (n := n) (by decide) (by decide) (by simp [hn])
      refine ⟨c, cs, rfl, ?_, ?_, ?_⟩
      · by_contra hspace
        simp only [isSpace, Bool.or_eq_true, decide_eq_true_eq, Bool.not_eq_false] at hspace
        rcases hspace with ((rfl | rfl) | rfl) | rfl <;> cases hc
      · rintro rfl
        cases hc
      · rintro rfl
        cases hc
  | str s => exact ⟨'"', s ++ ['"'], by rw [print]; rfl, by decide, by decide, by decide⟩
  | arr vs => cases vs <;> exact ⟨'[', _, by rw [print], by decide, by decide, by decide⟩
  | obj fs => cases fs <;> exact ⟨'{', _, by rw [print], by decide, by decide, by decide⟩

theorem ends_printItems (d : Nat) (vs : List Json) (rest : List Char) :
    Ends (printItems d vs ++ rest) := by
  intro c hc
  cases vs <;> rw [printItems] at hc <;> cases hc <;> rfl

theorem ends_printFields (d : Nat) (fs : List (List Char × Json)) (rest : List Char) :
    Ends (printFields d fs ++ rest) := by
  intro c hc
  cases fs <;> rw [printFields] at hc <;> cases hc <;> rfl

mutual
/-- **A value is read back**, whatever follows it, as long as a number is not drawn out. -/
theorem parseValue_print : ∀ (v : Json) (d fuel : Nat) (rest : List Char), v.Plain → Ends rest →
    (print d v).length ≤ fuel → parseValue fuel (print d v ++ rest) = some (v, rest)
  | num n, d, fuel, rest, _, hrest, hfuel => by
    obtain ⟨c, cs, hprint, hspace, -, -⟩ := exists_print d (num n)
    rw [hprint, List.length_cons] at hfuel
    obtain ⟨fuel, rfl⟩ : ∃ f, fuel = f + 1 := ⟨fuel - 1, by omega⟩
    have hnum := parseNum_toDigits hrest n
    rw [print] at hprint ⊢
    have hc : c.isDigit = true :=
      Nat.isDigit_of_mem_toDigits (b := 10) (n := n) (by decide) (by decide) (by simp [hprint])
    rw [hprint, List.cons_append] at hnum ⊢
    rw [parseValue, skipSpace_cons hspace]
    split
    · rename_i heq
      cases heq
      cases hc
    · rename_i heq
      cases heq
      cases hc
    · rename_i heq
      cases heq
      cases hc
    · simp [hnum]
  | str s, d, fuel, rest, hv, _, hfuel => by
    rw [Plain] at hv
    rw [print, quote] at hfuel ⊢
    simp only [List.length_cons] at hfuel
    obtain ⟨fuel, rfl⟩ : ∃ f, fuel = f + 1 := ⟨fuel - 1, by omega⟩
    have hstring := parseString_quote hv rest
    rw [List.cons_append, List.append_assoc, parseValue, skipSpace_cons (by decide)]
    simp [hstring]
  | arr [], d, fuel, rest, _, _, hfuel => by
    rw [print] at hfuel ⊢
    obtain ⟨fuel, rfl⟩ : ∃ f, fuel = f + 1 := ⟨fuel - 1, by simp at hfuel; omega⟩
    rfl
  | arr (v :: vs), d, fuel, rest, hv, _, hfuel => by
    rw [Plain, PlainItems] at hv
    rw [print] at hfuel ⊢
    simp only [List.length_cons, List.length_append] at hfuel
    obtain ⟨fuel, rfl⟩ : ∃ f, fuel = f + 1 := ⟨fuel - 1, by omega⟩
    have hvalue := parseValue_print v (d + 1) fuel (printItems d vs ++ rest) hv.1
      (ends_printItems d vs rest) (by omega)
    have hitems := parseItems_print vs d fuel rest hv.2 (by omega)
    obtain ⟨c, cs, hprint, hspace, hclose, -⟩ := exists_print (d + 1) v
    rw [hprint, List.cons_append] at hvalue
    have hskip : skipSpace (newline (d + 1) ++ (print (d + 1) v ++ (printItems d vs ++ rest))) =
        c :: (cs ++ (printItems d vs ++ rest)) := by
      rw [skipSpace_newline, hprint, List.cons_append, skipSpace_cons hspace]
    rw [List.cons_append, List.append_assoc, List.append_assoc, parseValue_arr hskip hclose]
    simp [hvalue, hitems]
  | obj [], d, fuel, rest, _, _, hfuel => by
    rw [print] at hfuel ⊢
    obtain ⟨fuel, rfl⟩ : ∃ f, fuel = f + 1 := ⟨fuel - 1, by simp at hfuel; omega⟩
    rfl
  | obj (f :: fs), d, fuel, rest, hv, _, hfuel => by
    rw [Plain, PlainFields] at hv
    rw [print] at hfuel ⊢
    simp only [List.length_cons, List.length_append] at hfuel
    obtain ⟨fuel, rfl⟩ : ∃ f, fuel = f + 1 := ⟨fuel - 1, by omega⟩
    have hfield := parseField_print f d fuel (printFields d fs ++ rest) hv.1
      (ends_printFields d fs rest) (by omega)
    have hfields := parseFields_print fs d fuel rest hv.2 (by omega)
    have hskip : skipSpace (newline (d + 1) ++ (printField d f ++ (printFields d fs ++ rest))) =
        printField d f ++ (printFields d fs ++ rest) := by
      rw [skipSpace_newline, printField, quote]
      exact skipSpace_cons (by decide)
    have hopen : printField d f ++ (printFields d fs ++ rest) =
        '"' :: (f.1 ++ ['"'] ++ (':' :: ' ' :: print (d + 1) f.2) ++
          (printFields d fs ++ rest)) := by
      rw [printField, quote]
      rfl
    rw [hopen] at hfield
    rw [List.cons_append, List.append_assoc, List.append_assoc,
      parseValue_obj (hskip.trans hopen) (by decide), hfield]
    simp [hfields]

theorem parseItems_print : ∀ (vs : List Json) (d fuel : Nat) (rest : List Char), PlainItems vs →
    (printItems d vs).length ≤ fuel → parseItems fuel (printItems d vs ++ rest) = some (vs, rest)
  | [], d, fuel, rest, _, hfuel => by
    rw [printItems] at hfuel ⊢
    obtain ⟨fuel, rfl⟩ : ∃ f, fuel = f + 1 := ⟨fuel - 1, by simp at hfuel; omega⟩
    rw [List.append_assoc, parseItems, skipSpace_newline]
    rfl
  | v :: vs, d, fuel, rest, hv, hfuel => by
    rw [PlainItems] at hv
    rw [printItems] at hfuel ⊢
    simp only [List.length_cons, List.length_append] at hfuel
    obtain ⟨fuel, rfl⟩ : ∃ f, fuel = f + 1 := ⟨fuel - 1, by omega⟩
    have hvalue := parseValue_print v (d + 1) fuel (printItems d vs ++ rest) hv.1
      (ends_printItems d vs rest) (by omega)
    have hitems := parseItems_print vs d fuel rest hv.2 (by omega)
    rw [List.cons_append, List.append_assoc, List.append_assoc, parseItems,
      skipSpace_cons (by decide)]
    simp [parseValue_newline, hvalue, hitems]

theorem parseField_print : ∀ (f : List Char × Json) (d fuel : Nat) (rest : List Char),
    PlainField f → Ends rest → (printField d f).length ≤ fuel →
    parseField fuel (printField d f ++ rest) = some (f, rest)
  | (key, v), d, fuel, rest, hf, hrest, hfuel => by
    rw [PlainField] at hf
    rw [printField] at hfuel ⊢
    simp only [List.length_cons, List.length_append] at hfuel
    obtain ⟨fuel, rfl⟩ : ∃ f, fuel = f + 1 := ⟨fuel - 1, by omega⟩
    have hvalue := parseValue_print v (d + 1) fuel rest hf.2 hrest (by omega)
    have hkey := parseString_quote hf.1 (':' :: ' ' :: (print (d + 1) v ++ rest))
    have hspaced : parseValue fuel (' ' :: (print (d + 1) v ++ rest)) = some (v, rest) := by
      rw [← hvalue]
      cases fuel <;> rfl
    rw [quote, List.append_assoc, List.cons_append, List.append_assoc]
    refine (parseField_key hkey).trans ?_
    simp [hspaced]

theorem parseFields_print : ∀ (fs : List (List Char × Json)) (d fuel : Nat) (rest : List Char),
    PlainFields fs → (printFields d fs).length ≤ fuel →
    parseFields fuel (printFields d fs ++ rest) = some (fs, rest)
  | [], d, fuel, rest, _, hfuel => by
    rw [printFields] at hfuel ⊢
    obtain ⟨fuel, rfl⟩ : ∃ f, fuel = f + 1 := ⟨fuel - 1, by simp at hfuel; omega⟩
    rw [List.append_assoc, parseFields, skipSpace_newline]
    rfl
  | f :: fs, d, fuel, rest, hf, hfuel => by
    rw [PlainFields] at hf
    rw [printFields] at hfuel ⊢
    simp only [List.length_cons, List.length_append] at hfuel
    obtain ⟨fuel, rfl⟩ : ∃ f, fuel = f + 1 := ⟨fuel - 1, by omega⟩
    have hfield := parseField_print f d fuel (printFields d fs ++ rest) hf.1
      (ends_printFields d fs rest) (by omega)
    have hfields := parseFields_print fs d fuel rest hf.2 (by omega)
    rw [List.cons_append, List.append_assoc, List.append_assoc, parseFields,
      skipSpace_cons (by decide)]
    simp [parseField_newline, hfield, hfields]
end

/-- **What was printed is parsed.** -/
theorem parse_pretty {v : Json} (hv : v.Plain) : parse (pretty v) = some v := by
  have hvalue := parseValue_print v 0 ((pretty v).length + 1) [] hv (fun c hc => by cases hc)
    (Nat.le_succ _)
  rw [List.append_nil] at hvalue
  unfold parse
  rw [show parseValue ((pretty v).length + 1) (pretty v) = some (v, []) from hvalue]
  rfl

end Json
