import LibReactor.Decode
import LibReactor.Terminated
import LibReactor.Utf8Spec

/-!
# The JSON grammar

RFC 8259, with white space around the tokens, and with two restrictions: an exponent
has no superfluous leading zero, and a `\u` escape denotes no surrogate on its own.
A text derives the tree of its values, in which an object has a member for each of
its keys in the text. A string stands for what `string_utf8_decode` makes of it.
-/

namespace LibReactor

variable {L : Type}

def Blank (w : Bytes) : Prop := ∀ c ∈ w, isWhitespace c = true

/-! ## Numbers -/

def DigitsText (w : Bytes) : Prop := w ≠ [] ∧ ∀ c ∈ w, isdigit c = true

def IntText (w : Bytes) : Prop := DigitsText w ∧ (w.head? = some (ch '0') → w = [ch '0'])

def FracText (w : Bytes) : Prop := w = [] ∨ ∃ ds, w = ch '.' :: ds ∧ DigitsText ds

/-- `[ exp ]`, with the restriction on leading zeros -/
def ExpText (w : Bytes) : Prop :=
  w = [] ∨ ∃ e sign ds, w = e :: sign ++ ds ∧ (e = ch 'e' ∨ e = ch 'E') ∧
    (sign = [] ∨ sign = [ch '-'] ∨ sign = [ch '+']) ∧ IntText ds

def NumberText (w : Bytes) : Prop :=
  ∃ minus int frac exp, w = minus ++ (int ++ (frac ++ exp)) ∧ (minus = [] ∨ minus = [ch '-']) ∧
    IntText int ∧ FracText frac ∧ ExpText exp

/-! ## Strings -/

inductive CharText : Bytes → Prop
  | unescaped {c : ℕ} : Scalar c → 0x20 ≤ c → c ≠ 0x22 → c ≠ 0x5c → CharText (utf8 c)
  | escape {e : UInt8} : e ∈ str "\"\\/bfnrt" → CharText [backslash, e]
  | unicode {a b c d : UInt8} : isxdigit a = true → isxdigit b = true → isxdigit c = true →
      isxdigit d = true → (hexCode a b c d < 0xd800 ∨ 0xe000 ≤ hexCode a b c d) →
      CharText [backslash, ch 'u', a, b, c, d]
  | surrogates {a b c d a' b' c' d' : UInt8} : isxdigit a = true → isxdigit b = true →
      isxdigit c = true → isxdigit d = true → isxdigit a' = true → isxdigit b' = true →
      isxdigit c' = true → isxdigit d' = true →
      0xd800 ≤ hexCode a b c d → hexCode a b c d < 0xdc00 →
      0xdc00 ≤ hexCode a' b' c' d' → hexCode a' b' c' d' < 0xe000 →
      CharText [backslash, ch 'u', a, b, c, d, backslash, ch 'u', a', b', c', d']

/-- `string = quotation-mark *char quotation-mark`, and what `string_utf8_decode` makes of it -/
def StringText (w b : Bytes) : Prop :=
  ∃ chars : List Bytes, (∀ c ∈ chars, CharText c) ∧ w = quote :: (chars.flatten ++ [quote]) ∧
    stringUtf8Decode (chars.flatten ++ [quote]) = .ok (b, [quote])

/-! ## Values -/

section Grammar

variable (strtold : Bytes → L × Bool)

mutual

/-- `value`, without the white space around it -/
inductive JsonValue : Bytes → Tree L → Prop
  | null : JsonValue (str "null") .null
  | boolTrue : JsonValue (str "true") (.bool true)
  | boolFalse : JsonValue (str "false") (.bool false)
  | number {w : Bytes} : NumberText w → (strtold w).2 = false →
      JsonValue w (.number (strtold w).1)
  | string {w b : Bytes} : StringText w b → JsonValue w (.string b)
  | emptyArray {w : Bytes} : Blank w → JsonValue (ch '[' :: (w ++ [ch ']'])) (.array [])
  | array {w : Bytes} {ts : List (Tree L)} : JsonElements w ts →
      JsonValue (ch '[' :: (w ++ [ch ']'])) (.array ts)
  | emptyObject {w : Bytes} : Blank w → JsonValue (ch '{' :: (w ++ [ch '}'])) (.object [])
  | object {w : Bytes} {ms : List (Bytes × Tree L)} : JsonMembers w ms →
      JsonValue (ch '{' :: (w ++ [ch '}'])) (.object ms)

inductive JsonElement : Bytes → Tree L → Prop
  | mk {a w b : Bytes} {t : Tree L} : Blank a → JsonValue w t → Blank b →
      JsonElement (a ++ (w ++ b)) t

inductive JsonElements : Bytes → List (Tree L) → Prop
  | one {w : Bytes} {t : Tree L} : JsonElement w t → JsonElements w [t]
  | more {w w' : Bytes} {ts : List (Tree L)} {t : Tree L} : JsonElements w ts →
      JsonElement w' t → JsonElements (w ++ ch ',' :: w') (ts ++ [t])

inductive JsonMember : Bytes → Bytes × Tree L → Prop
  | mk {a k b w key : Bytes} {t : Tree L} : Blank a → StringText k key → Blank b →
      JsonElement w t → JsonMember (a ++ (k ++ (b ++ ch ':' :: w))) (key, t)

inductive JsonMembers : Bytes → List (Bytes × Tree L) → Prop
  | one {w : Bytes} {m : Bytes × Tree L} : JsonMember w m → JsonMembers w [m]
  | more {w w' : Bytes} {ms : List (Bytes × Tree L)} {m : Bytes × Tree L} : JsonMembers w ms →
      JsonMember w' m → JsonMembers (w ++ ch ',' :: w') (ms ++ [m])

end

end Grammar

end LibReactor
