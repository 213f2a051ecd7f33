import Mathlib.Tactic
import Mathlib.Data.List.Basic

/-!
# Eufs.Base.Json — JSON texts

`Json` are the values of JSON and `parse` reads a text by the grammar of the standard: white space between tokens,
escapes in strings (two escapes for a character outside the basic plane), numbers by their text.  `print` writes a value
without white space, and `parse_print` says that it is read back.
-/

namespace Eufs

variable {cs l : List Char} {n : ℕ} {c : Char} {v : Json}

inductive Json where
  | null
  | bool (b : Bool)
  | number (text : List Char)
  | string (s : List Char)
  | array (elements : List Json)
  | object (members : List (List Char × Json))

namespace Json

/-! ## Reading -/

def isSpace (c : Char) : Bool := c = ' ' || c = '\t' || c = '\n' || c = '\r'

def skipSpace : List Char → List Char
  | [] => []
  | c :: cs => if isSpace c then skipSpace cs else c :: cs

def hexValue (c : Char) : Option ℕ :=
  if '0' ≤ c ∧ c ≤ '9' then some (c.toNat - 48)
  else if 'a' ≤ c ∧ c ≤ 'f' then some (c.toNat - 87)
  else if 'A' ≤ c ∧ c ≤ 'F' then some (c.toNat - 55)
  else none

/-- Four hexadecimal digits. -/
def hex4 (a b c d : Char) : Option ℕ := do
  return (((← hexValue a) * 16 + (← hexValue b)) * 16 + (← hexValue c)) * 16 + (← hexValue d)

/-- The escapes of one letter. -/
def unescape : Char → Option Char
  | '"' => some '"'
  | '\\' => some '\\'
  | '/' => some '/'
  | 'b' => some '\x08'
  | 'f' => some '\x0c'
  | 'n' => some '\n'
  | 'r' => some '\r'
  | 't' => some '\t'
  | _ => none

/-- The rest of a string after its opening quote. -/
def parseString : List Char → Option (List Char × List Char)
  | [] => none
  | '"' :: cs => some ([], cs)
  | '\\' :: 'u' :: a :: b :: c :: d :: cs =>
    match hex4 a b c d with
    | none => none
    | some n =>
      if 0xD800 ≤ n ∧ n < 0xDC00 then
        -- the first half of a pair needs the second
        match cs with
        | '\\' :: 'u' :: e :: f :: g :: h :: cs =>
          match hex4 e f g h with
          | none => none
          | some m =>
            if 0xDC00 ≤ m ∧ m < 0xE000 then
              (parseString cs).map fun p => (Char.ofNat (0x10000 + (n - 0xD800) * 0x400 + (m - 0xDC00)) :: p.1, p.2)
            else none
        | _ => none
      else if 0xDC00 ≤ n ∧ n < 0xE000 then none
      else (parseString cs).map fun p => (Char.ofNat n :: p.1, p.2)
  | '\\' :: e :: cs =>
    match unescape e with
    | none => none
    | some c => (parseString cs).map fun p => (c :: p.1, p.2)
  | c :: cs => if c.toNat < 0x20 ∨ c = '\\' then none else (parseString cs).map fun p => (c :: p.1, p.2)

/-- At least one digit. -/
def parseDigits (cs : List Char) : Option (List Char × List Char) :=
  match cs.span Char.isDigit with
  | ([], _) => none
  | p => some p

/-- A whole number without leading zeros. -/
def parseInt : List Char → Option (List Char × List Char)
  | '0' :: cs => some (['0'], cs)
  | cs => parseDigits cs

def parseFraction : List Char → Option (List Char × List Char)
  | '.' :: cs => (parseDigits cs).map fun p => ('.' :: p.1, p.2)
  | cs => some ([], cs)

def parseExponent : List Char → Option (List Char × List Char)
  | c :: cs =>
    if c = 'e' ∨ c = 'E' then
      match cs with
      | '+' :: cs => (parseDigits cs).map fun p => (c :: '+' :: p.1, p.2)
      | '-' :: cs => (parseDigits cs).map fun p => (c :: '-' :: p.1, p.2)
      | cs => (parseDigits cs).map fun p => (c :: p.1, p.2)
    else some ([], c :: cs)
  | [] => some ([], [])

/-- A number without its sign. -/
def parseUnsigned (cs : List Char) : Option (List Char × List Char) := do
  let (whole, cs) ← parseInt cs
  let (fraction, cs) ← parseFraction cs
  let (exponent, cs) ← parseExponent cs
  return (whole ++ fraction ++ exponent, cs)

def parseNumber : List Char → Option (List Char × List Char)
  | '-' :: cs => (parseUnsigned cs).map fun p => ('-' :: p.1, p.2)
  | cs => parseUnsigned cs

mutual

/-- A value and what follows it; the first argument bounds the recursion. -/
def parseValue : ℕ → List Char → Option (Json × List Char)
  | 0, _ => none
  | n + 1, cs =>
    match skipSpace cs with
    | 'n' :: 'u' :: 'l' :: 'l' :: cs => some (.null, cs)
    | 't' :: 'r' :: 'u' :: 'e' :: cs => some (.bool true, cs)
    | 'f' :: 'a' :: 'l' :: 's' :: 'e' :: cs => some (.bool false, cs)
    | '"' :: cs => (parseString cs).map fun p => (.string p.1, p.2)
    | '[' :: cs =>
      match skipSpace cs with
      | ']' :: cs => some (.array [], cs)
      | cs => (parseElements n cs).map fun p => (.array p.1, p.2)
    | '{' :: cs =>
      match skipSpace cs with
      | '}' :: cs => some (.object [], cs)
      | cs => (parseMembers n cs).map fun p => (.object p.1, p.2)
    | cs => (parseNumber cs).map fun p => (.number p.1, p.2)

/-- The elements of an array up to its closing bracket. -/
def parseElements : ℕ → List Char → Option (List Json × List Char)
  | 0, _ => none
  | n + 1, cs =>
    match parseValue n cs with
    | none => none
    | some (v, cs) =>
      match skipSpace cs with
      | ',' :: cs => (parseElements n cs).map fun p => (v :: p.1, p.2)
      | ']' :: cs => some ([v], cs)
      | _ => none

/-- The members of an object up to its closing brace. -/
def parseMembers : ℕ → List Char → Option (List (List Char × Json) × List Char)
  | 0, _ => none
  | n + 1, cs =>
    match skipSpace cs with
    | '"' :: cs =>
      match parseString cs with
      | none => none
      | some (key, cs) =>
        match skipSpace cs with
        | ':' :: cs =>
          match parseValue n cs with
          | none => none
          | some (v, cs) =>
            match skipSpace cs with
            | ',' :: cs => (parseMembers n cs).map fun p => ((key, v) :: p.1, p.2)
            | '}' :: cs => some ([(key, v)], cs)
            | _ => none
        | _ => none
    | _ => none

end

/-- A text is one value, with white space around it. -/
def parse (cs : List Char) : Option Json :=
  match parseValue (cs.length + 1) cs with
  | none => none
  | some (v, cs) => if skipSpace cs = [] then some v else none

/-! ## Writing -/

def escape (c : Char) : List Char :=
  if c = '"' then ['\\', '"']
  else if c = '\\' then ['\\', '\\']
  else if c = '\x08' then ['\\', 'b']
  else if c = '\x0c' then ['\\', 'f']
  else if c = '\n' then ['\\', 'n']
  else if c = '\r' then ['\\', 'r']
  else if c = '\t' then ['\\', 't']
  else if c.toNat < 0x20 then ['\\', 'u', '0', '0', Nat.digitChar (c.toNat / 16), Nat.digitChar (c.toNat % 16)]
  else [c]

def printString (s : List Char) : List Char := '"' :: (s.flatMap escape ++ ['"'])

mutual

def print : Json → List Char
  | .null => ['n', 'u', 'l', 'l']
  | .bool true => ['t', 'r', 'u', 'e']
  | .bool false => ['f', 'a', 'l', 's', 'e']
  | .number text => text
  | .string s => printString s
  | .array elements => '[' :: printElements elements
  | .object members => '{' :: printMembers members

/-- The elements with the closing bracket. -/
def printElements : List Json → List Char
  | [] => [']']
  | [v] => print v ++ [']']
  | v :: w :: vs => print v ++ ',' :: printElements (w :: vs)

/-- The members with the closing brace. -/
def printMembers : List (List Char × Json) → List Char
  | [] => ['}']
  | [(key, v)] => printString key ++ ':' :: (print v ++ ['}'])
  | (key, v) :: m :: ms => printString key ++ ':' :: (print v ++ ',' :: printMembers (m :: ms))

end

theorem print_number (text : List Char) : (number text).print = text := rfl

theorem print_string (s : List Char) : (string s).print = printString s := rfl

theorem print_array (vs : List Json) : (array vs).print = '[' :: printElements vs := rfl

theorem print_object (ms : List (List Char × Json)) : (object ms).print = '{' :: printMembers ms := rfl

/-- What follows an element of an array. -/
def printRest : List Json → List Char
  | [] => [']']
  | v :: vs => ',' :: printElements (v :: vs)

theorem printElements_cons (v : Json) (vs : List Json) : printElements (v :: vs) = v.print ++ printRest vs := by
  cases vs <;> rfl

/-! ## What was written is read back -/

theorem hexValue_digitChar : ∀ n < 16, hexValue (Nat.digitChar n) = some n := by decide

theorem parseString_escape (c : Char) (cs : List Char) :
    parseString (escape c ++ cs) = (parseString cs).map fun p => (c :: p.1, p.2) := by
  unfold escape
  split_ifs with h1 h2 h3 h4 h5 h6 h7 h8
  · subst h1
    rfl
  · subst h2
    rfl
  · subst h3
    rfl
  · subst h4
    rfl
  · subst h5
    rfl
  · subst h6
    rfl
  · subst h7
    rfl
  · -- a control character, by its number
    have hhex : hex4 '0' '0' (Nat.digitChar (c.toNat / 16)) (Nat.digitChar (c.toNat % 16)) = some c.toNat := by
      have hzero : hexValue '0' = some 0 := rfl
      have hvalue : ((0 * 16 + 0) * 16 + c.toNat / 16) * 16 + c.toNat % 16 = c.toNat := by omega
      simp only [hex4, hzero, hexValue_digitChar _ (show c.toNat / 16 < 16 by omega),
        hexValue_digitChar _ (show c.toNat % 16 < 16 by omega)]
      exact congrArg some hvalue
    have hlow : ¬ (0xD800 ≤ c.toNat ∧ c.toNat < 0xDC00) := by omega
    have hlow' : ¬ (0xDC00 ≤ c.toNat ∧ c.toNat < 0xE000) := by omega
    simp only [List.cons_append, List.nil_append, parseString, hhex, if_neg hlow, if_neg hlow', Char.ofNat_toNat]
  · have hc : ¬ (c.toNat < 0x20 ∨ c = '\\') := by tauto
    rw [List.singleton_append, parseString.eq_def]
    split <;> simp_all

theorem parseString_print (s cs : List Char) : parseString (s.flatMap escape ++ '"' :: cs) = some (s, cs) := by
  induction s with
  | nil => rfl
  | cons c s ih =>
    rw [List.flatMap_cons, List.append_assoc, parseString_escape, ih]
    rfl

/-- What may follow a number. -/
def EndsNumber (cs : List Char) : Prop :=
  ∀ c l, cs = c :: l → c.isDigit = false ∧ c ≠ '.' ∧ c ≠ 'e' ∧ c ≠ 'E'

/-- The text is read as a number, as far as it goes. -/
structure NumberText (text : List Char) : Prop where
  head : ∃ c l, text = c :: l ∧ (c.isDigit = true ∨ c = '-')
  parse : ∀ cs, EndsNumber cs → parseNumber (text ++ cs) = some (text, cs)

theorem parseFraction_ends (h : EndsNumber cs) : parseFraction cs = some ([], cs) := by
  unfold parseFraction
  split
  · exact absurd rfl (h _ _ rfl).2.1
  · rfl

theorem parseExponent_ends (h : EndsNumber cs) : parseExponent cs = some ([], cs) := by
  unfold parseExponent
  split
  · obtain ⟨-, -, he, hE⟩ := h _ _ rfl
    rw [if_neg (by tauto)]
  · rfl

theorem parseDigits_append (hne : l ≠ []) (hl : ∀ c ∈ l, c.isDigit = true) (h : EndsNumber cs) :
    parseDigits (l ++ cs) = some (l, cs) := by
  have htake : (l ++ cs).takeWhile Char.isDigit = l := by
    rw [List.takeWhile_append_of_pos hl]
    cases cs with
    | nil => simp
    | cons c cs => simp [(h c cs rfl).1]
  have hdrop : (l ++ cs).dropWhile Char.isDigit = cs := by
    rw [List.dropWhile_append_of_pos hl]
    cases cs with
    | nil => rfl
    | cons c cs => simp [(h c cs rfl).1]
  obtain ⟨c, l, rfl⟩ := List.exists_cons_of_ne_nil hne
  rw [parseDigits, List.span_eq_takeWhile_dropWhile, htake, hdrop]

/-- The decimal digits of a number other than zero do not start with a zero. -/
theorem toDigits_head (hn : 0 < n) : ∃ c l, Nat.toDigits 10 n = c :: l ∧ c ≠ '0' := by
  induction n using Nat.strong_induction_on with
  | _ n ih =>
    rcases Nat.lt_or_ge n 10 with h | h
    · rw [Nat.toDigits_of_lt_base h]
      refine ⟨_, [], rfl, ?_⟩
      interval_cases n <;> decide
    · obtain ⟨c, l, hl, hc⟩ := ih (n / 10) (by omega) (by omega)
      rw [Nat.toDigits_of_base_le (by decide) h, hl]
      exact ⟨c, _, rfl, hc⟩

theorem parseInt_of_ne (hc : c ≠ '0') : parseInt (c :: cs) = parseDigits (c :: cs) := by
  unfold parseInt
  split
  · rename_i h
    exact absurd (List.cons.inj h).1 hc
  · rfl

theorem parseInt_toDigits (n : ℕ) (hcs : EndsNumber cs) :
    parseInt (Nat.toDigits 10 n ++ cs) = some (Nat.toDigits 10 n, cs) := by
  rcases Nat.eq_zero_or_pos n with rfl | hn
  · rfl
  · obtain ⟨c, l, hl, hc⟩ := toDigits_head hn
    have hdigits : ∀ x ∈ c :: l, x.isDigit = true := fun x hx =>
      Nat.isDigit_of_mem_toDigits (by decide) (by decide) (hl ▸ hx)
    rw [hl, List.cons_append, parseInt_of_ne hc]
    exact parseDigits_append (List.cons_ne_nil c l) hdigits hcs

/-- Without a minus sign a number starts with its whole part. -/
theorem parseNumber_of_digit (hc : c.isDigit = true) {whole : List Char} (h : parseInt (c :: l) = some (whole, cs))
    (hcs : EndsNumber cs) : parseNumber (c :: l) = some (whole, cs) := by
  have hminus : c ≠ '-' := by
    rintro rfl
    exact absurd hc (by decide)
  unfold parseNumber
  split
  · rename_i heq
    exact absurd (List.cons.inj heq).1 hminus
  · simp only [parseUnsigned, h, Option.bind_eq_bind, Option.bind_some, parseFraction_ends hcs,
      parseExponent_ends hcs, List.append_nil]
    rfl

theorem numberText_toDigits (n : ℕ) : NumberText (Nat.toDigits 10 n) := by
  obtain ⟨c, l, hl⟩ := List.exists_cons_of_ne_nil (@Nat.toDigits_ne_nil n 10)
  have hc : c.isDigit = true :=
    Nat.isDigit_of_mem_toDigits (by decide) (by decide) (hl ▸ List.mem_cons_self)
  refine ⟨⟨c, l, hl, Or.inl hc⟩, fun cs hcs => ?_⟩
  have hint := parseInt_toDigits n hcs
  rw [hl, List.cons_append] at hint ⊢
  exact parseNumber_of_digit hc hint hcs

/-! ### Values -/

mutual

/-- The numbers of the value have the text of numbers. -/
def Printable : Json → Prop
  | .null | .bool _ | .string _ => True
  | .number text => NumberText text
  | .array elements => PrintableElements elements
  | .object members => PrintableMembers members

def PrintableElements : List Json → Prop
  | [] => True
  | v :: vs => v.Printable ∧ PrintableElements vs

def PrintableMembers : List (List Char × Json) → Prop
  | [] => True
  | (_, v) :: ms => v.Printable ∧ PrintableMembers ms

end

mutual

/-- The recursion that reading the value takes. -/
def size : Json → ℕ
  | .null | .bool _ | .string _ | .number _ => 1
  | .array elements => 1 + sizeElements elements
  | .object members => 1 + sizeMembers members

def sizeElements : List Json → ℕ
  | [] => 0
  | v :: vs => 1 + v.size + sizeElements vs

def sizeMembers : List (List Char × Json) → ℕ
  | [] => 0
  | (_, v) :: ms => 1 + v.size + sizeMembers ms

end

theorem skipSpace_cons (h : isSpace c = false) : skipSpace (c :: cs) = c :: cs := by
  simp [skipSpace, h]

theorem number_head (hc : c.isDigit = true ∨ c = '-') :
    c ∉ [' ', '\t', '\n', '\r', 'n', 't', 'f', '"', '[', '{', ']'] := by
  have hlist : ∀ d ∈ [' ', '\t', '\n', '\r', 'n', 't', 'f', '"', '[', '{', ']'],
    ¬ (d.isDigit = true ∨ d = '-') := by
    simp [Char.isDigit]
  exact fun hmem => hlist c hmem hc

theorem isSpace_number (hc : c.isDigit = true ∨ c = '-') : isSpace c = false := by
  have h := number_head hc
  simp only [List.mem_cons, not_or] at h
  simp [isSpace, h]

/-- No value starts with white space or a closing bracket. -/
theorem print_head (h : v.Printable) : ∃ c l, v.print = c :: l ∧ isSpace c = false ∧ c ≠ ']' := by
  cases v with
  | null => exact ⟨_, _, rfl, rfl, by decide⟩
  | bool b => cases b <;> exact ⟨_, _, rfl, rfl, by decide⟩
  | number text =>
    obtain ⟨c, l, hl, hc⟩ := NumberText.head h
    refine ⟨c, l, hl, isSpace_number hc, ?_⟩
    have hne := number_head hc
    simp only [List.mem_cons, not_or] at hne
    tauto
  | string s => exact ⟨_, _, rfl, rfl, by decide⟩
  | array elements => exact ⟨_, _, rfl, rfl, by decide⟩
  | object members => exact ⟨_, _, rfl, rfl, by decide⟩

theorem parseValue_number (hc : c.isDigit = true ∨ c = '-') :
    parseValue (n + 1) (c :: l) = (parseNumber (c :: l)).map fun p => (.number p.1, p.2) := by
  have hne := number_head hc
  simp only [List.mem_cons, not_or] at hne
  rw [parseValue, skipSpace_cons (isSpace_number hc)]
  split <;> simp_all

theorem parseValue_array (hv : v.Printable) (cs : List Char) :
    parseValue (n + 1) ('[' :: (v.print ++ cs)) =
      (parseElements n (v.print ++ cs)).map fun p => (.array p.1, p.2) := by
  obtain ⟨c, l, hl, hc, hne⟩ := print_head hv
  rw [hl, List.cons_append, parseValue, skipSpace_cons rfl]
  simp only [skipSpace_cons hc]
  split
  · rename_i h
    exact absurd (List.cons.inj h).1 hne
  · rfl

theorem parseValue_object (cs : List Char) :
    parseValue (n + 1) ('{' :: '"' :: cs) = (parseMembers n ('"' :: cs)).map fun p => (.object p.1, p.2) := by
  rw [parseValue, skipSpace_cons rfl]
  simp only [skipSpace_cons (show isSpace '"' = false from rfl)]
  split
  · rename_i h
    exact absurd (List.cons.inj h).1 (by decide)
  · rfl

theorem endsNumber_cons {c : Char} (hc : c ∈ [',', ']', '}', '\n']) (cs : List Char) : EndsNumber (c :: cs) := by
  have hlist : ∀ d ∈ [',', ']', '}', '\n'], d.isDigit = false ∧ d ≠ '.' ∧ d ≠ 'e' ∧ d ≠ 'E' := by
    simp [Char.isDigit]
  intro d l h
  obtain ⟨rfl, -⟩ := List.cons.inj h
  exact hlist c hc

theorem size_pos (v : Json) : 0 < v.size := by
  cases v <;> simp [size]

mutual

theorem parseValue_print : ∀ (v : Json) (n : ℕ) (cs : List Char), v.Printable → v.size ≤ n → EndsNumber cs →
    parseValue n (v.print ++ cs) = some (v, cs)
  | v, 0, _, _, hn, _ => absurd (size_pos v) (by omega)
  | .null, n + 1, cs, _, _, _ => rfl
  | .bool true, n + 1, cs, _, _, _ => rfl
  | .bool false, n + 1, cs, _, _, _ => rfl
  | .number text, n + 1, cs, hp, _, hcs => by
    obtain ⟨c, l, rfl, hc⟩ := NumberText.head hp
    have hparse := NumberText.parse hp cs hcs
    rw [print, List.cons_append] at *
    rw [parseValue_number hc, hparse]
    rfl
  | .string s, n + 1, cs, _, _, _ => by
    rw [print, printString, List.cons_append, List.append_assoc, List.singleton_append, parseValue, skipSpace_cons rfl]
    simp only [parseString_print]
    rfl
  | .array [], n + 1, cs, _, _, _ => rfl
  | .array (v :: vs), n + 1, cs, hp, hn, _ => by
    rw [size] at hn
    have helements := parseElements_print v vs n cs hp (by omega)
    rw [printElements_cons, List.append_assoc] at helements
    rw [print, printElements_cons, List.cons_append, List.append_assoc, parseValue_array hp.1, helements]
    rfl
  | .object [], n + 1, cs, _, _, _ => rfl
  | .object ((key, v) :: ms), n + 1, cs, hp, hn, _ => by
    rw [size] at hn
    have hmembers := parseMembers_print key v ms n cs hp (by omega)
    have hsplit : ∃ l, printMembers ((key, v) :: ms) = '"' :: l := by
      cases ms <;> exact ⟨_, rfl⟩
    obtain ⟨l, hl⟩ := hsplit
    rw [hl, List.cons_append] at hmembers
    rw [print, hl, List.cons_append, List.cons_append, parseValue_object, hmembers]
    rfl

theorem parseElements_print : ∀ (v : Json) (vs : List Json) (n : ℕ) (cs : List Char),
    PrintableElements (v :: vs) →
    sizeElements (v :: vs) ≤ n → parseElements n (printElements (v :: vs) ++ cs) = some (v :: vs, cs)
  | v, vs, 0, _, _, hn => absurd hn (by simp [sizeElements])
  | v, [], n + 1, cs, hp, hn => by
    rw [sizeElements] at hn
    have hvalue := parseValue_print v n (']' :: cs) hp.1 (by omega) (endsNumber_cons (by decide) cs)
    rw [printElements, List.append_assoc, List.singleton_append, parseElements, hvalue]
    simp only [skipSpace_cons (show isSpace ']' = false from rfl)]
  | v, w :: ws, n + 1, cs, hp, hn => by
    rw [sizeElements] at hn
    have hvalue := parseValue_print v n (',' :: (printElements (w :: ws) ++ cs)) hp.1 (by omega)
      (endsNumber_cons (by decide) _)
    have hrest := parseElements_print w ws n cs hp.2 (by omega)
    rw [printElements, List.append_assoc, List.cons_append, parseElements, hvalue]
    simp only [skipSpace_cons (show isSpace ',' = false from rfl), hrest]
    rfl

theorem parseMembers_print :
    ∀ (key : List Char) (v : Json) (ms : List (List Char × Json)) (n : ℕ) (cs : List Char),
    PrintableMembers ((key, v) :: ms) → sizeMembers ((key, v) :: ms) ≤ n →
      parseMembers n (printMembers ((key, v) :: ms) ++ cs) = some ((key, v) :: ms, cs)
  | key, v, ms, 0, _, _, hn => absurd hn (by simp [sizeMembers])
  | key, v, [], n + 1, cs, hp, hn => by
    rw [sizeMembers] at hn
    have hvalue := parseValue_print v n ('}' :: cs) hp.1 (by omega) (endsNumber_cons (by decide) cs)
    rw [printMembers, printString]
    simp only [List.cons_append, List.append_assoc, List.nil_append, parseMembers,
      skipSpace_cons (show isSpace '"' = false from rfl), parseString_print,
      skipSpace_cons (show isSpace ':' = false from rfl), hvalue, skipSpace_cons (show isSpace '}' = false from rfl)]
  | key, v, (k, w) :: ms, n + 1, cs, hp, hn => by
    rw [sizeMembers] at hn
    have hvalue := parseValue_print v n (',' :: (printMembers ((k, w) :: ms) ++ cs)) hp.1 (by omega)
      (endsNumber_cons (by decide) _)
    have hrest := parseMembers_print k w ms n cs hp.2 (by omega)
    rw [printMembers, printString]
    simp only [List.cons_append, List.append_assoc, List.nil_append, parseMembers,
      skipSpace_cons (show isSpace '"' = false from rfl), parseString_print,
      skipSpace_cons (show isSpace ':' = false from rfl), hvalue, skipSpace_cons (show isSpace ',' = false from rfl),
      hrest]
    rfl

end

mutual

/-- A text is long enough for the recursion that reading it takes. -/
theorem size_le_length : ∀ v : Json, v.Printable → v.size ≤ v.print.length
  | .null, _ => by decide
  | .bool true, _ => by decide
  | .bool false, _ => by decide
  | .number text, hp => by
    obtain ⟨c, l, rfl, -⟩ := NumberText.head hp
    simp [size, print]
  | .string s, _ => by simp [size, print, printString]
  | .array elements, hp => by
    have := sizeElements_le elements hp
    rw [size, print, List.length_cons]
    omega
  | .object members, hp => by
    have := sizeMembers_le members hp
    rw [size, print, List.length_cons]
    omega

theorem sizeElements_le : ∀ vs : List Json, PrintableElements vs → sizeElements vs ≤ (printElements vs).length
  | [], _ => by simp [sizeElements]
  | [v], hp => by
    have := size_le_length v hp.1
    simp only [sizeElements, printElements, List.length_append, List.length_singleton]
    omega
  | v :: w :: ws, hp => by
    have h1 := size_le_length v hp.1
    have h2 := sizeElements_le (w :: ws) hp.2
    rw [sizeElements, printElements, List.length_append, List.length_cons]
    omega

theorem sizeMembers_le : ∀ ms : List (List Char × Json), PrintableMembers ms →
    sizeMembers ms ≤ (printMembers ms).length
  | [], _ => by simp [sizeMembers]
  | [(key, v)], hp => by
    have := size_le_length v hp.1
    simp only [sizeMembers, printMembers, List.length_append, List.length_cons, List.length_nil]
    omega
  | (key, v) :: m :: ms, hp => by
    have h1 := size_le_length v hp.1
    have h2 := sizeMembers_le (m :: ms) hp.2
    rw [sizeMembers, printMembers]
    simp only [List.length_append, List.length_cons]
    omega

end

/-- A printed value, with white space after it, is read back. -/
theorem parse_print (hp : v.Printable) (hcs : EndsNumber cs) (hspace : skipSpace cs = []) :
    parse (v.print ++ cs) = some v := by
  have hsize := size_le_length v hp
  rw [parse, parseValue_print v _ cs hp (by rw [List.length_append]; omega) hcs]
  simp only [hspace, if_true]

end Json

end Eufs
