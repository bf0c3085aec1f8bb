import Libntech.Printf.Vsnprintf
import Mathlib.Data.List.Induction

/-! # What is printed does not depend on the buffer

A piece of the printer *emits* a text if all it does to the output is to put out the text, with every size that the buffer
has room for. What it emits may depend on the number of characters before it.
-/
namespace Libntech.Printf
set_option autoImplicit false

open Libntech.Json (Bytes ascii)

/-! ## Texts in a buffer -/

def Out.push (size : ℕ) (out : Out) (ch : UInt8) : Out :=
  ⟨if out.len + 1 < size then out.str.set out.len ch else out.str, out.len + 1⟩

def Out.put (size : ℕ) (out : Out) (text : Bytes) : Out := text.foldl (Out.push size) out

variable {size : ℕ} {out : Out}

@[simp] theorem Out.put_nil : out.put size [] = out := rfl

theorem Out.put_append (s t : Bytes) : out.put size (s ++ t) = (out.put size s).put size t := List.foldl_append

theorem Out.put_concat (t : Bytes) (ch : UInt8) : out.put size (t ++ [ch]) = (out.put size t).push size ch := by
  rw [Out.put_append]
  rfl

@[simp] theorem Out.put_length (t : Bytes) : (out.put size t).str.length = out.str.length := by
  induction t using List.reverseRecOn with
  | nil => rfl
  | append_singleton t ch ih =>
    rw [Out.put_concat, ← ih]
    unfold Out.push
    split_ifs <;> simp

@[simp] theorem Out.put_len (t : Bytes) : (out.put size t).len = out.len + t.length := by
  induction t using List.reverseRecOn with
  | nil => rfl
  | append_singleton t ch ih =>
    rw [Out.put_concat, List.length_append]
    change (out.put size t).len + 1 = _
    rw [ih, List.length_singleton, Nat.add_assoc]

/-- Below the size, with room left for the terminator, the buffer holds the text. -/
theorem Out.put_str {str : Bytes} (hroom : size ≤ str.length) (t : Bytes) :
    (Out.put size ⟨str, 0⟩ t).str = t.take (size - 1) ++ str.drop (min t.length (size - 1)) := by
  induction t using List.reverseRecOn with
  | nil => simp
  | append_singleton t ch ih =>
    have hlen : (Out.put size ⟨str, 0⟩ t).len = t.length := by rw [Out.put_len]; exact Nat.zero_add _
    rw [Out.put_concat]
    unfold Out.push
    rw [hlen, List.length_append, List.length_singleton]
    by_cases hlt : t.length + 1 < size
    · rw [if_pos hlt, ih, Nat.min_eq_left (by omega), Nat.min_eq_left (by omega),
        List.take_of_length_le (by omega), List.take_of_length_le (by simp; omega),
        List.set_append_right _ _ (Nat.le_refl _), Nat.sub_self, List.drop_eq_getElem_cons (by omega),
        List.set_cons_zero, List.append_assoc]
      rfl
    · rw [if_neg hlt, ih, Nat.min_eq_right (by omega), Nat.min_eq_right (by omega), List.take_append_of_le_length (by omega)]

/-! ## Emitting -/

section

variable {α β γ : Type}

/-- How the result of a piece goes on with the result of the next one. -/
def joined (r : ℕ → Except Halt (α × Bytes)) (q : α → ℕ → Except Halt (β × Bytes)) (len : ℕ) : Except Halt (β × Bytes) := do
  let (a, text) ← r len
  let (b, more) ← q a (len + text.length)
  return (b, text ++ more)

def Emits (f : ℕ → Printer α) (r : ℕ → Except Halt (α × Bytes)) : Prop :=
  ∀ size out, size ≤ out.str.length → f size out = (r out.len).map fun p => (p.1, out.put size p.2)

theorem Emits.pure (a : α) : Emits (fun _ => Pure.pure a) fun _ => .ok (a, []) := fun _ _ _ => rfl

theorem Emits.lift (e : Except Halt α) : Emits (fun _ => (liftM e : Printer α)) fun _ => e.map fun a => (a, []) := by
  intro size out _
  cases e <;> rfl

theorem Emits.outchar (ch : UInt8) : Emits (fun size => Printf.outchar size ch) fun _ => .ok ((), [ch]) := by
  intro size out hroom
  change (if out.len + 1 < size then _ else _ : Printer Unit) out = .ok ((), out.push size ch)
  unfold Out.push
  split_ifs with hlt hin
  · rfl
  · omega
  · rfl

variable {q : α → ℕ → Except Halt (β × Bytes)} {g : α → ℕ → Printer β} {f : ℕ → Printer Unit}

/-- Of the next piece, it is enough that it emits a text behind the results of the first one. -/
theorem Emits.bind_of {f : ℕ → Printer α} {r : ℕ → Except Halt (α × Bytes)} (hf : Emits f r)
    (hg : ∀ a len text, r len = .ok (a, text) → Emits (g a) (q a)) :
    Emits (fun size => f size >>= fun a => g a size) (joined r q) := by
  intro size out hroom
  change (f size out >>= fun p => g p.1 size p.2) = _
  rw [hf size out hroom]
  unfold joined
  cases hr : r out.len with
  | error e => rfl
  | ok p =>
    obtain ⟨a, text⟩ := p
    change g a size (out.put size text) = Except.map _ (q a (out.len + text.length) >>= _)
    rw [hg a _ text hr size _ (by rwa [Out.put_length]), Out.put_len]
    cases q a (out.len + text.length) with
    | error e => rfl
    | ok p => exact congrArg (fun out => Except.ok (p.1, out)) (Out.put_append _ _).symm

theorem Emits.bind {f : ℕ → Printer α} {r : ℕ → Except Halt (α × Bytes)} (hf : Emits f r) (hg : ∀ a, Emits (g a) (q a)) :
    Emits (fun size => f size >>= fun a => g a size) (joined r q) :=
  hf.bind_of fun a _ _ _ => hg a

theorem Emits.lift_bind_of (e : Except Halt α) (hg : ∀ a, e = .ok a → Emits (g a) (q a)) :
    Emits (fun size => liftM e >>= fun a => g a size) fun len => e >>= fun a => q a len := by
  intro size out hroom
  cases e with
  | error e => rfl
  | ok a => exact hg a rfl size out hroom

theorem Emits.lift_bind (e : Except Halt α) (hg : ∀ a, Emits (g a) (q a)) :
    Emits (fun size => liftM e >>= fun a => g a size) fun len => e >>= fun a => q a len :=
  .lift_bind_of e fun a _ => hg a

theorem Emits.result {e : Except Halt Bytes} (hf : Emits f fun _ => e.map fun text => ((), text)) (b : β) :
    Emits (fun size => do f size; return b) fun _ => e.map fun text => (b, text) := by
  intro size out hroom
  change (f size out >>= fun p => Except.ok (b, p.2)) = _
  rw [hf size out hroom]
  cases e <;> rfl

theorem Emits.returns {text : Bytes} (hf : Emits f fun _ => .ok ((), text)) (b : β) :
    Emits (fun size => do f size; return b) fun _ => .ok (b, text) := by
  have h := Emits.result (e := .ok text) hf b
  exact h

theorem Emits.seq {g : ℕ → Printer Unit} {text more : Bytes} (hf : Emits f fun _ => .ok ((), text))
    (hg : Emits g fun _ => .ok ((), more)) :
    Emits (fun size => do f size; g size) fun _ => .ok ((), text ++ more) := hf.bind fun _ => hg

theorem Emits.outchars (text : Bytes) : Emits (fun size => Printf.outchars size text) fun _ => .ok ((), text) := by
  induction text with
  | nil => exact .pure ()
  | cons ch text ih => exact (Emits.outchar ch).seq ih

end

end Libntech.Printf
