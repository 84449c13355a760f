/-!
# The width of a text

Lines are measured in the bytes of their UTF-8 form.

* `width` is that measure; it adds up over `++` (`width_append`) and agrees with the size that
  the core library gives to a `String` (`width_toList`).
-/

namespace NinjaGen.Text

/-- The number of bytes of a text in UTF-8. -/
def width : List Char → Nat
  | [] => 0
  | c :: r => c.utf8Size + width r

@[simp] theorem width_nil : width [] = 0 := rfl

@[simp] theorem width_cons (c : Char) (cs : List Char) :
    width (c :: cs) = c.utf8Size + width cs := rfl

@[simp] theorem width_append (cs ds : List Char) : width (cs ++ ds) = width cs + width ds := by
  induction cs with
  | nil => simp
  | cons c r ih => simp [ih, Nat.add_assoc]

theorem utf8ByteSize_ofList (cs : List Char) : (String.ofList cs).utf8ByteSize = width cs := by
  induction cs with
  | nil => rfl
  | cons c r ih =>
    rw [show c :: r = [c] ++ r from rfl, String.ofList_append, String.utf8ByteSize_append, ih,
      width_append]
    simp

theorem width_toList (s : String) : width s.toList = s.utf8ByteSize := by
  rw [← utf8ByteSize_ofList, String.ofList_toList]

end NinjaGen.Text
