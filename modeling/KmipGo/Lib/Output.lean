import KmipGo.Lib.BigEndian
import KmipGo.Lib.Result

/-! # Output of a call

What a call has written so far, and how it ended.  A call that did not return a
value stops what comes after it (`Printed.andThen`).
-/

namespace KmipGo.Lib

structure Printed (ε : Type) where
  text : Bytes
  result : Res ε Unit
deriving DecidableEq

namespace Printed

variable {ε δ : Type}

def write (s : Bytes) : Printed ε := ⟨s, .ok ()⟩

/-- A write of a text whose computation may fail before anything is written. -/
def ofRes : Res ε Bytes → Printed ε
  | .ok s => write s
  | .err e => ⟨[], .err e⟩
  | .panic => ⟨[], .panic⟩

/-- Two calls, the second one only if the first one returned. -/
def andThen (p q : Printed ε) : Printed ε :=
  match p.result with
  | .ok () => ⟨p.text ++ q.text, q.result⟩
  | .err e => ⟨p.text, .err e⟩
  | .panic => ⟨p.text, .panic⟩

/-- The same call, with another error. -/
def mapErr (f : ε → δ) (p : Printed ε) : Printed δ :=
  match p.result with
  | .ok () => ⟨p.text, .ok ()⟩
  | .err e => ⟨p.text, .err (f e)⟩
  | .panic => ⟨p.text, .panic⟩

@[simp] theorem text_write (s : Bytes) : (write s : Printed ε).text = s := rfl

@[simp] theorem result_write (s : Bytes) : (write s : Printed ε).result = .ok () := rfl

@[simp] theorem ofRes_ok (s : Bytes) : (ofRes (.ok s) : Printed ε) = write s := rfl

theorem andThen_of_ok {p : Printed ε} (h : p.result = .ok ()) (q : Printed ε) :
    p.andThen q = ⟨p.text ++ q.text, q.result⟩ := by
  rw [andThen, h]

theorem write_andThen (s : Bytes) (q : Printed ε) : (write s).andThen q = ⟨s ++ q.text, q.result⟩ :=
  andThen_of_ok (result_write s) q

theorem mapErr_of_ok (f : ε → δ) {p : Printed ε} (h : p.result = .ok ()) : p.mapErr f = write p.text := by
  rw [mapErr, h]
  rfl

end Printed

end KmipGo.Lib
