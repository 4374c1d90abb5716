import Aug.Lib.Transition
import Aug.Util.Xstr

/-!
# Runs of string calls

Any number of strings in one heap, with a reference byte string for each. A call with undefined
behaviour leaves no memory. What a call asks of its caller and of the pool is checked before it.
-/

namespace Aug.Util

open Aug.Lib

/-- A call of the string library. -/
inductive XstrAction where
  | createxstr (x size : ℕ) (cells : ℕ → UInt8)
  | destroyxstr (x : ℕ)
  | clearxstrn (x len : ℕ)
  | clearxstr (x : ℕ)
  | xstrcatsn (x : ℕ) (src : Source) (len : ℕ) (alloc : Alloc)
  | xstrcats (x : ℕ) (text : Option (List UInt8)) (alloc : Alloc)
  | xstrcat (x src : ℕ) (alloc : Alloc)
  | xstrcpysn (x : ℕ) (src : Source) (len : ℕ) (alloc : Alloc)
  | xstrcpys (x : ℕ) (text : Option (List UInt8)) (alloc : Alloc)
  | xstrcpy (x src : ℕ) (alloc : Alloc)
  | xstrcatcn (x : ℕ) (ch : UInt8) (num : ℕ) (alloc : Alloc)
  | xstrcatc (x : ℕ) (ch : UInt8) (alloc : Alloc)
  | xstrcpycn (x : ℕ) (ch : UInt8) (num : ℕ) (alloc : Alloc)
  | xstrcpyc (x : ℕ) (ch : UInt8) (alloc : Alloc)
  | xstrread (x size : ℕ) (result : Option (List UInt8)) (alloc : Alloc)
  | xstr (x : ℕ)

namespace XstrAction

/-- The call. -/
def call : XstrAction → XCall Unit
  | createxstr x size cells => Xstr.createxstr size x cells
  | destroyxstr x => Xstr.destroyxstr x
  | clearxstrn x len => Xstr.clearxstrn x len
  | clearxstr x => Xstr.clearxstr x
  | xstrcatsn x src len alloc => Xstr.xstrcatsn x src len alloc
  | xstrcats x text alloc => Xstr.xstrcats x text alloc
  | xstrcat x src alloc => Xstr.xstrcat x src alloc
  | xstrcpysn x src len alloc => Xstr.xstrcpysn x src len alloc
  | xstrcpys x text alloc => Xstr.xstrcpys x text alloc
  | xstrcpy x src alloc => Xstr.xstrcpy x src alloc
  | xstrcatcn x ch num alloc => Xstr.xstrcatcn x ch num alloc
  | xstrcatc x ch alloc => Xstr.xstrcatc x ch alloc
  | xstrcpycn x ch num alloc => Xstr.xstrcpycn x ch num alloc
  | xstrcpyc x ch alloc => Xstr.xstrcpyc x ch alloc
  | xstrread x size result alloc => Xstr.xstrread x size result alloc
  | xstr x => do let _ ← Xstr.xstr x

/-- The string that the call is for. -/
def target : XstrAction → ℕ
  | createxstr x _ _ | destroyxstr x | clearxstrn x _ | clearxstr x | xstrcatsn x _ _ _ | xstrcats x _ _
  | xstrcat x _ _ | xstrcpysn x _ _ _ | xstrcpys x _ _ | xstrcpy x _ _ | xstrcatcn x _ _ _ | xstrcatc x _ _
  | xstrcpycn x _ _ _ | xstrcpyc x _ _ | xstrread x _ _ _ | xstr x => x

/-- What the pool answers to a request for a larger block. -/
def alloc : XstrAction → Alloc
  | createxstr _ _ _ | destroyxstr _ | clearxstrn _ _ | clearxstr _ | xstr _ => none
  | xstrcatsn _ _ _ alloc | xstrcats _ _ alloc | xstrcat _ _ alloc | xstrcpysn _ _ _ alloc
  | xstrcpys _ _ alloc | xstrcpy _ _ alloc | xstrcatcn _ _ _ alloc | xstrcatc _ _ alloc
  | xstrcpycn _ _ _ alloc | xstrcpyc _ _ alloc | xstrread _ _ _ alloc => alloc

/-- The bytes that a source pointer leads to. -/
def pointed (mem : XMemory) (src : Source) (len : ℕ) : Option (List UInt8) :=
  match src with
  | .caller bytes => Lib.load bytes 0 len
  | .block addr offset => mem.heap.load addr offset len

/-- The bytes before the terminator. -/
def chars (text : Option (List UInt8)) : List UInt8 := (text.getD []).takeWhile (· ≠ 0)

/-- The reference string after the call, without what the call appends. -/
def kept (old : List UInt8) : XstrAction → List UInt8
  | createxstr _ _ _ | destroyxstr _ | clearxstr _ => []
  | clearxstrn _ len => old.take len
  | xstrcpysn _ _ _ _ | xstrcpys _ _ _ | xstrcpy _ _ _ | xstrcpycn _ _ _ _ | xstrcpyc _ _ _ => []
  | xstrcatsn _ _ _ _ | xstrcats _ _ _ | xstrcat _ _ _ | xstrcatcn _ _ _ _ | xstrcatc _ _ _
  | xstrread _ _ _ _ | xstr _ => old

/-- What the call appends to the reference string. -/
def added (mem : XMemory) (contents : ℕ → List UInt8) : XstrAction → List UInt8
  | createxstr _ _ _ | destroyxstr _ | clearxstr _ | clearxstrn _ _ | xstr _ => []
  | xstrcatsn _ src len _ | xstrcpysn _ src len _ => (pointed mem src len).getD []
  | xstrcats _ text _ | xstrcpys _ text _ => chars text
  | xstrcat _ src _ | xstrcpy _ src _ => contents src
  | xstrcatcn _ ch num _ | xstrcpycn _ ch num _ => List.replicate num ch
  | xstrcatc _ ch _ | xstrcpyc _ ch _ => [ch]
  | xstrread _ _ result _ => result.getD []

/-- The number of bytes that the call reserves, if it reserves any. -/
def reserved (contents : ℕ → List UInt8) : XstrAction → Option ℕ
  | createxstr _ _ _ | destroyxstr _ | clearxstr _ | clearxstrn _ _ | xstr _ => none
  | xstrcatsn _ _ len _ | xstrcpysn _ _ len _ => if len = 0 then none else some len
  | xstrcats _ text _ | xstrcpys _ text _ => if chars text = [] then none else some (chars text).length
  | xstrcat _ src _ | xstrcpy _ src _ => if contents src = [] then none else some (contents src).length
  | xstrcatcn _ _ num _ | xstrcpycn _ _ num _ => some num
  | xstrcatc _ _ _ | xstrcpyc _ _ _ => some 1
  | xstrread _ size _ _ => some size

/-- A new string is at an address that is free, in a block of less than `2 ^ 63` bytes; every other call
is for a live string. -/
def live (mem : XMemory) : XstrAction → Bool
  | createxstr x size _ => (mem.heap x).isNone && decide (size < 2 ^ 64 ∧ u64 (40 + (max 64 size : ℕ)) < 2 ^ 63)
  | action => (mem.xstrs action.target).isSome

/-- The source of a call can be read, and the stream reads no more than it is asked for. -/
def readable (mem : XMemory) : XstrAction → Bool
  | xstrcatsn _ src len _ | xstrcpysn _ src len _ => (pointed mem src len).isSome
  | xstrcats _ text _ | xstrcpys _ text _ => text.all fun bytes => decide (0 ∈ bytes)
  | xstrcat _ src _ | xstrcpy _ src _ => (mem.xstrs src).isSome
  | xstrread _ size result _ => result.all fun bytes => decide (bytes.length ≤ size)
  | _ => true

/-- The pool answers with an address that is free, or with that of the block that grows. -/
def granted (mem : XMemory) (action : XstrAction) : Bool :=
  action.alloc.all fun answer => (mem.heap answer.1).isNone ||
    (mem.xstrs action.target).any fun xstr => decide (xstr.ptr = answer.1 ∧ answer.1 ≠ action.target)

end XstrAction

/-- The memory, unless an access was outside of a live block, and the reference strings. -/
structure Strings where
  memory : Option XMemory
  contents : ℕ → List UInt8

namespace Strings

/-- There are no strings. -/
def create : Strings := ⟨some ⟨fun _ => none, fun _ => none⟩, fun _ => []⟩

/-- The state after a call. -/
def after (strings : Strings) (mem : XMemory) (action : XstrAction) : Strings :=
  match action.call mem with
  | none => { strings with memory := none }
  | some (result, mem') =>
    let old := action.kept (strings.contents action.target)
    let new := match result with
      | .error _ => old
      | .ok _ => old ++ action.added mem strings.contents
    ⟨some mem', Function.update strings.contents action.target new⟩

/-- One call, if it is one that its caller and the pool may make. -/
def step (strings : Strings) (action : XstrAction) : Option Strings :=
  strings.memory.bind fun mem =>
    if action.live mem && action.readable mem && action.granted mem then some (strings.after mem action) else none

end Strings

end Aug.Util
