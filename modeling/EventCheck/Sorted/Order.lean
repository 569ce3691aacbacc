/-!
The laws of comparison functions with the function given by name, for orders that are defined by
an order of something else.
-/

namespace EventCheck

universe u

variable {α : Type u} (cmp : α → α → Ordering)

theorem cmp_self [Std.ReflCmp cmp] {a : α} : cmp a a = .eq := Std.ReflCmp.compare_self

theorem cmp_swap [Std.OrientedCmp cmp] {a b : α} : cmp a b = (cmp b a).swap :=
  Std.OrientedCmp.eq_swap

theorem cmp_isLE_trans [Std.TransCmp cmp] {a b c : α} (first : (cmp a b).isLE)
    (second : (cmp b c).isLE) : (cmp a c).isLE :=
  Std.TransCmp.isLE_trans first second

theorem eq_of_cmp [Std.LawfulEqCmp cmp] {a b : α} (same : cmp a b = .eq) : a = b :=
  Std.LawfulEqCmp.eq_of_compare same

end EventCheck
