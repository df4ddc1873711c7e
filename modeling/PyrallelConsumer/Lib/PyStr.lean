import Mathlib.Data.List.Basic

/-!
# PyrallelConsumer.Lib.PyStr

Python `str` values. Their code points may be lone surrogates, which no encoding to UTF-8 accepts, so a
value is either a text of Unicode scalar values or is cut at its first surrogate.

* `encodable_append` — a concatenation is encodable exactly when both parts are.
-/

namespace PyrallelConsumer

/-- A code point: a scalar value or one of the 2048 surrogates. -/
inductive CodePoint where
  | scalar (c : Char)
  | surrogate (n : Fin 2048)
deriving DecidableEq, Repr

inductive PyStr where
  | text (s : String)
  | broken (before : String) (surrogate : Fin 2048) (after : List CodePoint)
deriving DecidableEq, Repr

namespace PyStr

def ofString (s : String) : PyStr := text s

instance : Coe String PyStr := ⟨text⟩

/-- `str.encode("utf-8")` does not raise. -/
def encodable : PyStr → Bool
  | text _ => true
  | broken _ _ _ => false

def codePoints : PyStr → List CodePoint
  | text s => s.toList.map .scalar
  | broken before n after => before.toList.map .scalar ++ .surrogate n :: after

def append : PyStr → PyStr → PyStr
  | text s, text t => text (s ++ t)
  | text s, broken before n after => broken (s ++ before) n after
  | broken before n after, t => broken before n (after ++ t.codePoints)

instance : Append PyStr := ⟨append⟩

@[simp] theorem encodable_text (s : String) : (text s).encodable = true := rfl

@[simp] theorem encodable_append (s t : PyStr) : (s ++ t).encodable = (s.encodable && t.encodable) := by
  cases s <;> cases t <;> rfl

end PyStr

end PyrallelConsumer
