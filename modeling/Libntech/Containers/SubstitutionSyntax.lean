import Libntech.Containers.SearchReplace

/-! # Substitution strings

A dollar sign is the only escape character of PCRE2's substitution strings: `$$` is a dollar sign, and `$n`, `${n}` with
a number or a name, `$*MARK` and `${*MARK}` are references, where the braces are needed if what follows would be part of
the number or the name. `Reads` is this syntax. The strings that `ExpandCFESpecialReplacements` is given are in the same
syntax with the sequences that its comment adds, and `Lexes` takes them apart.

`Token.meaning` is what each part is to stand for, and `Means` that PCRE2 reads this in the string it is handed.
-/
namespace Libntech.Containers.Template
set_option autoImplicit false

open Libntech.Json (Bytes CString ascii decimal)

/-! ## What PCRE2 reads -/

inductive Item where
  | byte (c : UInt8)
  | group (number : ℕ)
  | named (name : Bytes)
  | mark
  deriving DecidableEq

def isWord (c : UInt8) : Bool :=
  isdigit c || ('a'.toUInt8 ≤ c && c ≤ 'z'.toUInt8) || ('A'.toUInt8 ≤ c && c ≤ 'Z'.toUInt8) || c = '_'.toUInt8

/-- A number, a name or `*MARK`, and what it refers to. -/
inductive Names : Bytes → Item → Prop where
  | number {digits : Bytes} : digits ≠ [] → (∀ c ∈ digits, isdigit c = true) → Names digits (.group (digitsValue digits))
  | word {name : Bytes} : name ≠ [] → (∀ c ∈ name, isWord c = true) → isdigit (name.headD 0) = false →
      name.length ≤ 32 → Names name (.named name)
  | mark : Names (ascii "*MARK") .mark

/-- The number or the name is not longer. -/
def Item.Ends (item : Item) (rest : Bytes) : Prop :=
  match item with
  | .group _ => isdigit (rest.headD 0) = false
  | _ => isWord (rest.headD 0) = false

instance (item : Item) (rest : Bytes) : Decidable (item.Ends rest) :=
  match item with
  | .group _ => inferInstanceAs (Decidable (isdigit (rest.headD 0) = false))
  | .byte _ => inferInstanceAs (Decidable (isWord (rest.headD 0) = false))
  | .named _ => inferInstanceAs (Decidable (isWord (rest.headD 0) = false))
  | .mark => inferInstanceAs (Decidable (isWord (rest.headD 0) = false))

/-- The item is not a group above the last of `n` groups, which is `PCRE2_ERROR_NOSUBSTRING`. -/
def Item.Within (n : ℕ) : Item → Prop
  | .group k => k ≤ n
  | _ => True

instance (n : ℕ) (item : Item) : Decidable (item.Within n) :=
  match item with
  | .group k => inferInstanceAs (Decidable (k ≤ n))
  | .byte _ => inferInstanceAs (Decidable True)
  | .named _ => inferInstanceAs (Decidable True)
  | .mark => inferInstanceAs (Decidable True)

def openBrace : UInt8 := '{'.toUInt8
def closeBrace : UInt8 := '}'.toUInt8

inductive Reads (n : ℕ) : Bytes → List Item → Prop where
  | nil : Reads n [] []
  | byte {c : UInt8} {t : Bytes} {items : List Item} : c ≠ dollarSign → Reads n t items →
      Reads n (c :: t) (.byte c :: items)
  | escape {t : Bytes} {items : List Item} : Reads n t items →
      Reads n (dollarSign :: dollarSign :: t) (.byte dollarSign :: items)
  | name {name t : Bytes} {item : Item} {items : List Item} : Names name item → item.Ends t → item.Within n →
      Reads n t items → Reads n (dollarSign :: (name ++ t)) (item :: items)
  | braces {name t : Bytes} {item : Item} {items : List Item} : Names name item → item.Within n → Reads n t items →
      Reads n (dollarSign :: openBrace :: (name ++ closeBrace :: t)) (item :: items)

/-! ## What the comment says -/

inductive Form where
  | dollar
  | backslash
  | braces
  deriving DecidableEq

inductive Token where
  | byte (c : UInt8)
  | escape
  | special (kind : Special)
  | reference (form : Form) (name : Bytes) (item : Item)

inductive Lexes : Bytes → List Token → Prop where
  | nil : Lexes [] []
  | byte {c : UInt8} {t : Bytes} {tokens : List Token} : c ≠ dollarSign → ¬ (c = backslash ∧ isdigit (t.headD 0)) →
      Lexes t tokens → Lexes (c :: t) (.byte c :: tokens)
  | escape {t : Bytes} {tokens : List Token} : Lexes t tokens → Lexes (dollarSign :: dollarSign :: t) (.escape :: tokens)
  | special {c : UInt8} {kind : Special} {t : Bytes} {tokens : List Token} : special c = some kind → Lexes t tokens →
      Lexes (dollarSign :: c :: t) (.special kind :: tokens)
  | backslash {digits t : Bytes} {k : ℕ} {tokens : List Token} : Names digits (.group k) → Item.Ends (.group k) t →
      Lexes t tokens → Lexes (backslash :: (digits ++ t)) (.reference .backslash digits (.group k) :: tokens)
  | name {name t : Bytes} {item : Item} {tokens : List Token} : Names name item → item.Ends t → Lexes t tokens →
      Lexes (dollarSign :: (name ++ t)) (.reference .dollar name item :: tokens)
  | braces {name t : Bytes} {item : Item} {tokens : List Token} : Names name item → Lexes t tokens →
      Lexes (dollarSign :: openBrace :: (name ++ closeBrace :: t)) (.reference .braces name item :: tokens)

/-- The text that takes the place of a special sequence. -/
def specialText (nCaptures : ℕ) {subject : Bytes} (m : Match subject) : Special → Bytes
  | .captureCount => decimal nCaptures
  | .before => subject.take m.start
  | .behind => subject.drop m.stop
  | .whole => (subject.drop m.start).take (m.stop - m.start)

/-- A reference to a group above the last one is replaced by nothing. -/
def Token.meaning (n : ℕ) (texts : Special → Bytes) : Token → List Item
  | .byte c => [.byte c]
  | .escape => [.byte dollarSign]
  | .special kind => (texts kind).map .byte
  | .reference _ _ item => if item.Within n then [item] else []

/-- The string that `pcre2_substitute` is handed. -/
def handed (fresh : Memory) (nCaptures : ℕ) {subject : Bytes} (m : Match subject) (substitute : CString) : Option Bytes :=
  (expandCFESpecialReplacements fresh nCaptures m substitute).map (·.getD substitute.bytes)

/-- PCRE2 reads what the parts of the substitution string are to stand for. -/
def Means (fresh : Memory) (nCaptures : ℕ) {subject : Bytes} (m : Match subject) (substitute : CString)
    (tokens : List Token) : Prop :=
  ∃ t, handed fresh nCaptures m substitute = some t ∧
    Reads nCaptures t (tokens.flatMap (Token.meaning nCaptures (specialText nCaptures m)))

end Libntech.Containers.Template
