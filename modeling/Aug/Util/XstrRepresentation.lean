import Aug.Util.XstrInvariant

/-!
# Strings over runs

Over any run of calls the strings represent the reference strings if and only if no call grows a
string or wraps a length.
-/

namespace Aug.Util

open Aug.Lib Call

namespace Xstr

variable {mem : XMemory} {x size n : ℕ} {content added rest : List UInt8} {alloc : Alloc}

/-- A call that starts with one that only reads. -/
theorem faithful_bind {α : Type} {first : XCall α} {call : α → XCall Unit} {value : α} {kept : List UInt8}
    {reserved : Option ℕ} (hfirst : Returns first mem value mem)
    (h : Faithful (call value) mem x size kept added reserved alloc) :
    Faithful (do let value ← first; call value) mem x size kept added reserved alloc where
  agrees hgood := by
    obtain ⟨result, mem', rest', hresult, hmem⟩ := h.agrees hgood
    apply Exists.intro result
    apply Exists.intro mem'
    apply Exists.intro rest'
    apply And.intro _ hmem
    cases result with
    | ok value => exact hfirst.bind hresult
    | error e => exact hfirst.bind_fails hresult
  breaks num hnum hbad := by
    cases h.breaks num hnum hbad with
    | inl hundefined => exact .inl (hfirst.bind_undefined hundefined)
    | inr hreturns =>
      obtain ⟨mem', str, hreturns, hfields⟩ := hreturns
      exact .inr ⟨mem', str, hfirst.bind hreturns, hfields⟩

theorem faithful_of_agrees {call : XCall Unit} {kept : List UInt8} (h : Agrees call mem x size kept added) :
    Faithful call mem x size kept added none alloc where
  agrees _ := h
  breaks num hnum := by cases hnum

/-- The content of a string that is held. -/
theorem load_held (h : Held mem x content size rest) : mem.heap.load x 0 content.length = some content :=
  Heap.load_block [] _ _ h.block rfl rfl

/-- What a source pointer leads to only depends on the heap. -/
theorem pointed_heap {mem' : XMemory} {src : Source} (h : mem'.heap = mem.heap) :
    XstrAction.pointed mem' src n = XstrAction.pointed mem src n := by
  cases src with
  | caller text => rfl
  | block addr offset => exact congrArg (fun heap : Heap UInt8 => heap.load addr offset n) h

theorem pointed_chars {text : List UInt8} : XstrAction.pointed mem (.caller text) (strlen text) =
    some (XstrAction.chars (some text)) := by
  have hsplit : text = [] ++ (text.takeWhile (· ≠ 0) ++ text.dropWhile (· ≠ 0)) := by
    rw [List.nil_append, List.takeWhile_append_dropWhile]
  have hload := load_append (a := ([] : List UInt8)) (b := text.takeWhile (· ≠ 0)) (c := text.dropWhile (· ≠ 0))
    (i := 0) rfl rfl
  rw [← hsplit] at hload
  exact hload

theorem faithful_xstrcats (text : Option (List UInt8)) (h : Held mem x content size rest)
    (hfree : ∀ a cells, alloc = some (a, cells) → mem.heap a = none) :
    Faithful (xstrcats x text alloc) mem x size content (XstrAction.chars text)
      (if XstrAction.chars text = [] then none else some (XstrAction.chars text).length) alloc := by
  cases text with
  | none => exact faithful_keep h (returns_pure () mem)
  | some text =>
    have hcall := faithful_xstrcatsn (n := strlen text) h hfree pointed_chars
    by_cases hempty : XstrAction.chars (some text) = []
    · have hzero : strlen text = 0 := congrArg List.length hempty
      rw [if_pos hzero] at hcall
      rw [if_pos hempty]
      exact hcall
    · have hzero : strlen text ≠ 0 := fun hlen => hempty (List.length_eq_zero_iff.mp hlen)
      rw [if_neg hzero] at hcall
      rw [if_neg hempty]
      exact hcall

end Xstr

open Xstr

/-- All strings are held, with the reference strings as their contents. -/
def AllHeld (mem : XMemory) (contents : ℕ → List UInt8) : Prop :=
  ∀ x, mem.xstrs x = none ∨ ∃ size rest, Held mem x (contents x) size rest

/-- The pointer of each string refers to a live block of more than `size_` bytes, which starts with the
reference string. -/
def Strings.Represented (strings : Strings) : Prop :=
  ∃ mem, strings.memory = some mem ∧ ∀ x xstr, mem.xstrs x = some xstr → ∃ block, mem.heap xstr.ptr = some block ∧
    xstr.size + 1 ≤ block.length ∧ xstr.len ≤ xstr.size ∧ block.take xstr.len = strings.contents x

/-- The call grows a string, or a length wraps. -/
def Strings.Grows (strings : Strings) (action : XstrAction) : Prop :=
  ∃ mem, strings.memory = some mem ∧
    match action with
    | .createxstr _ size _ => u64 (40 + (max 64 size : ℕ)) < 40
    | action => ∃ xstr num, mem.xstrs action.target = some xstr ∧ num ∈ action.reserved strings.contents ∧
      Exceeds xstr.size (action.kept (strings.contents action.target)).length num
        (action.added mem strings.contents).length action.alloc

variable {mem mem' : XMemory} {contents : ℕ → List UInt8} {x size : ℕ} {rest : List UInt8} {action : XstrAction}

theorem AllHeld.get (h : AllHeld mem contents) (hx : (mem.xstrs x).isSome) :
    ∃ size rest, Held mem x (contents x) size rest := by
  apply (h x).resolve_left
  intro hnone
  rw [hnone] at hx
  cases hx

/-- A new string is not at the address of another one. -/
theorem AllHeld.fresh (h : AllHeld mem contents) (hx : mem.heap x = none) : mem.xstrs x = none := by
  cases h x with
  | inl hnone => exact hnone
  | inr hheld =>
    obtain ⟨size, rest, hheld⟩ := hheld
    rw [hheld.block] at hx
    cases hx

theorem AllHeld.update {content : List UInt8} (h : AllHeld mem contents) (hmem : Elsewhere mem mem' x)
    (hheld : Held mem' x content size rest) : AllHeld mem' (Function.update contents x content) := by
  intro y
  by_cases hy : y = x
  · rw [hy, Function.update_self]
    exact .inr ⟨size, rest, hheld⟩
  · rw [Function.update_of_ne hy, (hmem y hy).2]
    cases h y with
    | inl hnone => exact .inl hnone
    | inr hother =>
      obtain ⟨size', rest', hother⟩ := hother
      exact .inr ⟨size', rest', hother.elsewhere hmem hy⟩

/-- Strings that are held represent their contents. -/
theorem AllHeld.represented (h : AllHeld mem contents) : Strings.Represented ⟨some mem, contents⟩ := by
  apply Exists.intro mem
  apply And.intro rfl
  intro x xstr hxstr
  obtain ⟨size, rest, hheld⟩ := h.get (x := x) (by rw [hxstr]; rfl)
  rw [hheld.fields, Option.some.injEq] at hxstr
  rw [← hxstr]
  apply Exists.intro (contents x ++ rest)
  apply And.intro hheld.block
  apply And.intro
  · rw [List.length_append, hheld.room]
    dsimp only
    omega
  · exact ⟨hheld.fits, List.take_left⟩

/-- A string of its own source. -/
theorem cat_source (h : AllHeld mem contents) {src : ℕ} (hsrc : (mem.xstrs src).isSome) :
    ∃ str, mem.xstrs src = some str ∧ str.len = (contents src).length ∧
      mem.heap.load str.ptr 0 (contents src).length = some (contents src) := by
  obtain ⟨size, rest, hheld⟩ := h.get hsrc
  exact ⟨_, hheld.fields, rfl, load_held hheld⟩

/-- Every call on a live string is faithful. -/
theorem action_faithful (h : AllHeld mem contents) (hheld : Held mem action.target (contents action.target) size rest)
    (hcreate : ∀ x size cells, action ≠ .createxstr x size cells) (hdestroy : ∀ x, action ≠ .destroyxstr x)
    (hreadable : action.readable mem = true)
    (hfree : ∀ a cells, action.alloc = some (a, cells) → mem.heap a = none) :
    Faithful action.call mem action.target size (action.kept (contents action.target)) (action.added mem contents)
      (action.reserved contents) action.alloc := by
  have hclear := clear_heap hheld 0
  have hempty := held_clear hheld 0
  have hfree' : ∀ a cells, action.alloc = some (a, cells) →
      (mem.put action.target size [] (contents action.target ++ rest)).heap a = none := by
    intro a cells halloc
    exact (congrFun hclear a).trans (hfree a cells halloc)
  cases action with
  | createxstr x size cells => exact absurd rfl (hcreate x size cells)
  | destroyxstr x => exact absurd rfl (hdestroy x)
  | clearxstrn x len => exact faithful_of_agrees (clearxstrn_agrees hheld len)
  | clearxstr x => exact faithful_of_agrees (clearxstrn_agrees hheld 0)
  | xstr x => exact faithful_of_agrees (xstr_agrees hheld)
  | xstrcatsn x src len alloc =>
    obtain ⟨bytes, hbytes⟩ := Option.isSome_iff_exists.mp hreadable
    rw [XstrAction.added, hbytes]
    exact faithful_xstrcatsn hheld hfree hbytes
  | xstrcpysn x src len alloc =>
    obtain ⟨bytes, hbytes⟩ := Option.isSome_iff_exists.mp hreadable
    rw [XstrAction.added, hbytes]
    exact faithful_clear hheld (faithful_xstrcatsn hempty hfree' ((pointed_heap hclear).trans hbytes))
  | xstrcats x text alloc => exact faithful_xstrcats text hheld hfree
  | xstrcpys x text alloc =>
    have hcall := faithful_clear hheld (faithful_xstrcats text hempty hfree')
    cases text with
    | none => exact hcall
    | some text => exact hcall
  | xstrcat x src alloc =>
    obtain ⟨str, hstr, hlen, hload⟩ := cat_source h hreadable
    apply faithful_bind (fields_returns hstr)
    rw [hlen]
    exact faithful_xstrcat_ hheld hfree hstr hload
  | xstrcpy x src alloc =>
    obtain ⟨str, hstr, hlen, hload⟩ := cat_source h hreadable
    obtain ⟨str', hstr', hptr⟩ := clear_ptr hheld 0 hstr
    apply faithful_bind (fields_returns hstr)
    apply faithful_clear hheld
    rw [hlen]
    apply faithful_xstrcat_ hempty hfree' hstr'
    rw [hptr]
    exact (congrArg (fun heap : Heap UInt8 => heap.load str.ptr 0 _) hclear).trans hload
  | xstrcatcn x ch num alloc => exact faithful_xstrcatcn hheld hfree ch
  | xstrcatc x ch alloc => exact faithful_xstrcatcn hheld hfree ch
  | xstrcpycn x ch num alloc => exact faithful_clear hheld (faithful_xstrcatcn hempty hfree' ch)
  | xstrcpyc x ch alloc => exact faithful_clear hheld (faithful_xstrcatcn hempty hfree' ch)
  | xstrread x num result alloc => exact faithful_xstrread hheld hfree result

/-- The strings are held. -/
def Strings.Held (strings : Strings) : Prop :=
  ∃ mem, strings.memory = some mem ∧ AllHeld mem strings.contents

/-- A call that agrees with the reference leaves all strings held. -/
theorem Agrees.held {strings : Strings} (h : AllHeld mem strings.contents)
    (hagrees : Agrees action.call mem action.target size (action.kept (strings.contents action.target))
      (action.added mem strings.contents)) : (strings.after mem action).Held := by
  obtain ⟨result, mem', rest, hresult, hmem, hheld⟩ := hagrees
  apply Exists.intro mem'
  rw [Strings.after, hresult]
  apply And.intro rfl
  cases result with
  | ok value => exact h.update hmem hheld
  | error e => exact h.update hmem hheld

/-- A call that is undefined, or leaves a length above the size, leaves no representation. -/
theorem Breaks.not_represented {strings : Strings} (h : Breaks action.call mem action.target) :
    ¬(strings.after mem action).Represented := by
  intro hrepresented
  obtain ⟨mem', hmem', hstrings⟩ := hrepresented
  cases h with
  | inl hundefined =>
    have hnone : action.call mem = none := hundefined
    rw [Strings.after, hnone] at hmem'
    cases hmem'
  | inr hreturns =>
    obtain ⟨last, xstr, hcall, hxstr, hlong⟩ := hreturns
    have hsome : action.call mem = some (.ok (), last) := hcall
    rw [Strings.after, hsome] at hmem'
    cases hmem'
    obtain ⟨block, -, -, hfits, -⟩ := hstrings action.target xstr hxstr
    omega

/-- What the checks before a call say about its target and its allocation. -/
theorem checked {strings next : Strings} (hmem : strings.memory = some mem) (h : strings.step action = some next) :
    next = strings.after mem action ∧ action.live mem = true ∧ action.readable mem = true ∧
      action.granted mem = true := by
  rw [Strings.step, hmem, Option.bind_some, Option.ite_none_right_eq_some] at h
  simp only [Bool.and_eq_true, Option.some.injEq] at h
  exact ⟨h.2.symm, h.1.1.1, h.1.1.2, h.1.2⟩

/-- While a string is in its local buffer, new blocks are at free addresses. -/
theorem granted_free (hheld : Held mem action.target (contents action.target) size rest)
    (hgranted : action.granted mem = true) :
    ∀ a cells, action.alloc = some (a, cells) → mem.heap a = none := by
  intro a cells halloc
  rw [XstrAction.granted, halloc, Option.all_some, hheld.fields, Option.any_some, Bool.or_eq_true,
    decide_eq_true_eq] at hgranted
  cases hgranted with
  | inl hfree => exact Option.isNone_iff_eq_none.mp hfree
  | inr hsame => exact absurd hsame.1.symm hsame.2

theorem live_target (hcreate : ∀ x size cells, action ≠ .createxstr x size cells) (h : action.live mem = true) :
    (mem.xstrs action.target).isSome := by
  cases action with
  | createxstr x size cells => exact absurd rfl (hcreate x size cells)
  | _ => exact h

/-- When a call on a string grows it. -/
theorem grows_held {strings : Strings} (hmem : strings.memory = some mem)
    (hcreate : ∀ x size cells, action ≠ .createxstr x size cells)
    (hheld : Held mem action.target (strings.contents action.target) size rest) :
    strings.Grows action ↔ ∃ num ∈ action.reserved strings.contents,
      Exceeds size (action.kept (strings.contents action.target)).length num
        (action.added mem strings.contents).length action.alloc := by
  have hgrows : strings.Grows action ↔ ∃ xstr num, mem.xstrs action.target = some xstr ∧
      num ∈ action.reserved strings.contents ∧ Exceeds xstr.size (action.kept (strings.contents action.target)).length
        num (action.added mem strings.contents).length action.alloc := by
    rw [Strings.Grows, hmem]
    simp only [Option.some.injEq, exists_eq_left']
  rw [hgrows, hheld.fields]
  simp only [Option.some.injEq, exists_and_left, exists_eq_left']

/-- A new string is held, and leaves the others as they are, unless its size wraps. -/
theorem create_held {strings : Strings} {cells : ℕ → UInt8} (hmem : strings.memory = some mem)
    (hall : AllHeld mem strings.contents) (hlive : (XstrAction.createxstr x size cells).live mem = true)
    (hgood : ¬strings.Grows (.createxstr x size cells)) :
    (strings.after mem (.createxstr x size cells)).Held := by
  rw [XstrAction.live, Bool.and_eq_true, decide_eq_true_eq] at hlive
  apply Agrees.held hall
  exact createxstr_agrees hlive.2.1 hlive.2.2 (fun hwraps => hgood ⟨mem, hmem, hwraps⟩)

/-- Destroying a string leaves the others as they are. -/
theorem destroy_held {strings : Strings} (hall : AllHeld mem strings.contents)
    (hheld : Held mem x (strings.contents x) size rest) : (strings.after mem (.destroyxstr x)).Held := by
  have hcall : (XstrAction.destroyxstr x).call mem = some (.ok (),
      ⟨Function.update mem.heap x none, Function.update mem.xstrs x none⟩) := destroyxstr_returns hheld
  have hafter : strings.after mem (.destroyxstr x) =
      ⟨some ⟨Function.update mem.heap x none, Function.update mem.xstrs x none⟩,
        Function.update strings.contents x []⟩ := by
    rw [Strings.after, hcall]
    rfl
  rw [hafter]
  apply Exists.intro _
  apply And.intro rfl
  intro y
  by_cases hy : y = x
  · rw [hy]
    exact .inl (Function.update_self _ _ _)
  · cases hall y with
    | inl hnone => exact .inl ((Function.update_of_ne hy _ _).trans hnone)
    | inr hother =>
      obtain ⟨size', rest', hother⟩ := hother
      have hmem : Elsewhere mem ⟨Function.update mem.heap x none, Function.update mem.xstrs x none⟩ x :=
        fun z hz => ⟨Function.update_of_ne hz _ _, Function.update_of_ne hz _ _⟩
      have hsame := hother.elsewhere hmem hy
      rw [← Function.update_of_ne hy ([] : List UInt8) strings.contents] at hsame
      exact .inr ⟨size', rest', hsame⟩

/-- A call that does not grow a string leaves all strings held. -/
theorem step_held {strings : Strings} (hmem : strings.memory = some mem) (hall : AllHeld mem strings.contents)
    (hlive : action.live mem = true) (hreadable : action.readable mem = true) (hgranted : action.granted mem = true)
    (hgood : ¬strings.Grows action) : (strings.after mem action).Held := by
  by_cases hcreate : ∃ x size cells, action = .createxstr x size cells
  · obtain ⟨x, size, cells, haction⟩ := hcreate
    rw [haction] at hlive hgood ⊢
    exact create_held hmem hall hlive hgood
  · have hother : ∀ x size cells, action ≠ .createxstr x size cells :=
      fun x size cells haction => hcreate ⟨x, size, cells, haction⟩
    obtain ⟨size, rest, hheld⟩ := hall.get (live_target hother hlive)
    by_cases hdestroy : ∃ x, action = .destroyxstr x
    · obtain ⟨x, haction⟩ := hdestroy
      rw [haction] at hheld ⊢
      exact destroy_held hall hheld
    · have hfaithful := action_faithful hall hheld hother (fun x haction => hdestroy ⟨x, haction⟩) hreadable
        (granted_free hheld hgranted)
      rw [grows_held hmem hother hheld] at hgood
      exact Agrees.held hall (hfaithful.agrees fun num hnum hbad => hgood ⟨num, hnum, hbad⟩)

/-- A call that grows a string leaves no representation. -/
theorem step_broken {strings : Strings} (hmem : strings.memory = some mem) (hall : AllHeld mem strings.contents)
    (hlive : action.live mem = true) (hreadable : action.readable mem = true) (hgranted : action.granted mem = true)
    (hbad : strings.Grows action) : ¬(strings.after mem action).Represented := by
  by_cases hcreate : ∃ x size cells, action = .createxstr x size cells
  · obtain ⟨x, size, cells, haction⟩ := hcreate
    rw [haction] at hbad ⊢
    obtain ⟨mem', hmem', hwraps⟩ := hbad
    exact Breaks.not_represented (.inl (createxstr_undefined hwraps))
  · have hother : ∀ x size cells, action ≠ .createxstr x size cells :=
      fun x size cells haction => hcreate ⟨x, size, cells, haction⟩
    obtain ⟨size, rest, hheld⟩ := hall.get (live_target hother hlive)
    rw [grows_held hmem hother hheld] at hbad
    obtain ⟨num, hnum, hexceeds⟩ := hbad
    have hdestroy : ∀ x, action ≠ .destroyxstr x := by
      intro x haction
      rw [haction] at hnum
      cases hnum
    have hfaithful := action_faithful hall hheld hother hdestroy hreadable (granted_free hheld hgranted)
    exact Breaks.not_represented (hfaithful.breaks num hnum hexceeds)

/-- Over a run of calls the strings are always represented if and only if no call grows a string or wraps
a length. -/
theorem Strings.represented_iff (actions : List XstrAction) {last : Strings} (h : run step create actions = some last) :
    Always step Represented create actions ↔ Avoids step Grows create actions := by
  have hcreate : create.Held := ⟨_, rfl, fun _ => .inl rfl⟩
  have himp : ∀ strings : Strings, strings.Held → strings.Represented := by
    intro strings hheld
    obtain ⟨mem, hmem, hall⟩ := hheld
    obtain ⟨mem', hmem', hstrings⟩ := hall.represented
    cases hmem'
    exact ⟨mem, hmem, hstrings⟩
  apply always_iff_avoids_of himp _ _ hcreate h
  · intro strings action next hq hstep hgood
    obtain ⟨mem, hmem, hall⟩ := hq
    obtain ⟨hnext, hlive, hreadable, hgranted⟩ := checked hmem hstep
    rw [hnext]
    exact step_held hmem hall hlive hreadable hgranted hgood
  · intro strings action next hq hstep hbad
    obtain ⟨mem, hmem, hall⟩ := hq
    obtain ⟨hnext, hlive, hreadable, hgranted⟩ := checked hmem hstep
    rw [hnext]
    exact step_broken hmem hall hlive hreadable hgranted hbad

/-- Two strings: one is filled and copied to itself and to the other one. -/
def copies : List XstrAction :=
  [.createxstr 0 0 (fun _ => 0), .createxstr 1 100 (fun _ => 0), .xstrcatcn 0 65 26 none, .xstrcpy 0 0 none,
    .xstrcat 1 0 none, .xstr 1]

theorem Strings.represented_iff_copies : ∃ last, run step create copies = some last ∧
    (Always step Represented create copies ↔ Avoids step Grows create copies) := by
  have hsome : (run step create copies).isSome := by decide +kernel
  obtain ⟨last, hrun⟩ := Option.isSome_iff_exists.mp hsome
  exact ⟨last, hrun, represented_iff copies hrun⟩

/-- A string of 65 characters: 128 bytes are copied from a buffer that has 72. -/
theorem Strings.growth_overreads : ¬∀ (actions : List XstrAction) (last : Strings),
    run step create actions = some last → last.Represented := by
  intro h
  have hlost : (run step create [.createxstr 0 0 (fun _ => 0), .xstrcatcn 0 65 65 (some (1, fun _ => 0))]).map
      (fun last => last.memory.isNone) = some true := by decide +kernel
  obtain ⟨last, hrun, hnone⟩ := Option.map_eq_some_iff.mp hlost
  obtain ⟨mem, hmem, -⟩ := h _ last hrun
  rw [hmem] at hnone
  cases hnone

/-- A string whose buffer is already a dynamic one: when the block moves, the pointer is left behind. -/
theorem Xstr.resize_dangles {str : Xstr} {block : List UInt8} {a : ℕ} {cells : ℕ → UInt8}
    (hfields : mem.xstrs x = some str) (hptr : str.ptr ≠ x) (hblock : mem.heap str.ptr = some block)
    (hmoves : a ≠ str.ptr) : ∃ mem', Returns (resize x size (some (a, cells))) mem () mem' ∧
      mem'.xstrs x = some { str with size } ∧ mem'.heap str.ptr = none := by
  apply Exists.intro _
  apply And.intro
  · apply (fields_returns hfields).bind
    rw [if_neg hptr]
    have hfree : Returns (freemem str.ptr) mem () { mem with heap := Function.update mem.heap str.ptr none } :=
      (returns_read mem).bind ((returns_access (Heap.free_block hblock) mem).bind (returns_modify _ mem))
    have hrealloc : Returns (reallocmem (some (a, cells)) str.ptr (u64 (size + 1))) mem a _ :=
      (returns_read mem).bind ((returns_access hblock mem).bind (hfree.bind ((returns_modify _ _).bind
        (returns_pure a _))))
    exact hrealloc.bind (returns_modify _ _)
  · apply And.intro (Function.update_self _ _ _)
    exact (Function.update_of_ne hmoves.symm _ _).trans (Function.update_self _ _ _)

end Aug.Util
