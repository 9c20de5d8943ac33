import Mathlib.Logic.Function.Basic
import Racey.Mix

/-! One iteration of the mixing loop, which racey-basic and most variants share:

    ```
    unsigned num = sig[threadId];
    unsigned index1 = num%MAX_ELEM;
    unsigned index2;
    num = mix(num, m[index1].value);
    index2 = num%MAX_ELEM;
    num = mix(num, m[index2].value);
    m[index2].value = num;
    sig[threadId] = num;
    ```

    Each load and store of a cell `m[k].value` is one step; `sig[threadId]` belongs to the thread alone, so
    its accesses go with the step next to them. -/

namespace Racey

/-- What the threads share: `sig`, of which thread `t` uses entry `t`, and the values of `m`. -/
@[ext] structure Memory where
  sig : ℕ → ℕ
  m : ℕ → ℤ

def Memory.init : Memory := ⟨sigInit, mInit⟩

inductive MixPc
  /-- Before the load of `m[index1].value`. -/
  | read1
  /-- Before the load of `m[index2].value`; `num` is the value after the first mix. -/
  | read2 (num : ℕ)
  /-- Before the store to `m[index2].value`; `num` is the value after the second mix. -/
  | write (index2 num : ℕ)
  deriving DecidableEq

inductive MixKind
  | firstRead
  | secondRead
  | write
  deriving DecidableEq

namespace MixPc

def kind : MixPc → MixKind
  | read1 => .firstRead
  | read2 _ => .secondRead
  | write _ _ => .write

/-- The index into `m` that the step uses, for a thread whose entry of `sig` is `sig`. -/
def index (sig : ℕ) : MixPc → ℕ
  | read1 => sig % maxElem
  | read2 num => num % maxElem
  | write index2 _ => index2

/-- A step of thread `t`: where it stands afterwards, and the memory. -/
def step (t : ℕ) (mem : Memory) : MixPc → MixPc × Memory
  | read1 => (read2 (mix (mem.sig t) (unsigned (mem.m (mem.sig t % maxElem)))), mem)
  | read2 num => (write (num % maxElem) (mix num (unsigned (mem.m (num % maxElem)))), mem)
  | write index2 num =>
    (read1, { sig := Function.update mem.sig t num, m := Function.update mem.m index2 (signed num) })

/-- The iterations completed after a step, out of `i` before it. -/
def count (i : ℕ) : MixPc → ℕ
  | write _ _ => i + 1
  | _ => i

end MixPc

end Racey
