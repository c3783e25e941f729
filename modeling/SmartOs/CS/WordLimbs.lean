/-
# Limbs that are machine words

Five words that stand for five numbers, with one bound for all of them. The rules for single
words are lifted to the operations that work limb by limb.
-/

import SmartOs.CS.MachineWord
import SmartOs.Math.FoldedLimbs

namespace SmartOs.CS

open Math

variable {w : ℕ}

structure AllUpto (x : Five (Word w)) (n : Five ℕ) (bound : ℕ) : Prop where
  l0 : x.l0.Upto n.l0 bound
  l1 : x.l1.Upto n.l1 bound
  l2 : x.l2.Upto n.l2 bound
  l3 : x.l3.Upto n.l3 bound
  l4 : x.l4.Upto n.l4 bound

namespace AllUpto

variable {x y : Five (Word w)} {m n : Five ℕ} {b c : ℕ}

theorem mono (limbs : AllUpto x n b) (weaker : b ≤ c) : AllUpto x n c :=
  ⟨limbs.l0.mono weaker, limbs.l1.mono weaker, limbs.l2.mono weaker, limbs.l3.mono weaker,
    limbs.l4.mono weaker⟩

theorem add (first : AllUpto x m b) (second : AllUpto y n c) (room : b + c < 2 ^ w) :
    AllUpto ⟨x.l0 + y.l0, x.l1 + y.l1, x.l2 + y.l2, x.l3 + y.l3, x.l4 + y.l4⟩ (m.add n) (b + c) :=
  ⟨first.l0.add second.l0 room, first.l1.add second.l1 room, first.l2.add second.l2 room,
    first.l3.add second.l3 room, first.l4.add second.l4 room⟩

end AllUpto

end SmartOs.CS
