import Nctuos.PageMap
import Nctuos.Smp
import Nctuos.Lib.Holdings

/-!
# The page allocator on several CPUs

`page_alloc`, `page_free` and the two ways in which a caller changes `pp_ref`, statement by
statement, on any number of CPUs.  A CPU has the pages that were handed out to it, and goes through a
list of requests about them.  `page_free` looks at its page before it takes `page_free_list_lock`,
and `pp_ref` is changed without the lock at all.

This is safe as long as a CPU uses only pages it has (`pages_never_shared`): at every moment no page
is with two CPUs; while the lock is free, every page that the allocator was given is on the list or
with one CPU, and not both.  The test for a double free never fails, and the other one only for a CPU
that gives back a page with references.

The unlocked accesses do no harm because the section of another CPU writes the `PageInfo` of one page
only, the one it is handing over, and that page is neither on the list nor with anybody else by then.
What the memory is in the middle of a section is `AllocPc.Mid`.

Alone on its CPU the program is `pageAlloc`, `pageFree`, `incref` and `pageDecref`
(`alone_eq_run`).
-/

namespace Nctuos

open Lib

/-! ## The program -/

/-- What a CPU wants; `k` is one of its pages. -/
inductive PageReq
  | alloc (zero : Bool)
  | free (k : Nat)
  | incref (k : Nat)
  | decref (k : Nat)

/-- The statement before which a CPU stands. -/
inductive AllocPc
  /-- None of them. -/
  | out
  /-- `page_free`: `if (pp->pp_ref != 0)`. -/
  | testRef (pp : Nat)
  /-- `if (pp->pp_link)`. -/
  | testLink (pp : Nat)
  /-- `spin_lock`. -/
  | acquire (pp : Nat)
  /-- `page_alloc`: `if (!page_free_list)`. -/
  | head (zero : Bool)
  /-- `pp = page_free_list`. -/
  | take (zero : Bool)
  /-- `page_free_list = page_free_list->pp_link`. -/
  | unlink (zero : Bool) (pp : Nat)
  /-- `pp->pp_link = NULL`. -/
  | clear (zero : Bool) (pp : Nat)
  /-- `memset(page2kva(pp), 0, PGSIZE)`. -/
  | wipe (pp : Nat)
  /-- `num_free_pages--`. -/
  | uncount (pp : Nat)
  /-- `page_free`: `pp->pp_link = page_free_list`. -/
  | link (pp : Nat)
  /-- `page_free_list = pp`. -/
  | push (pp : Nat)
  /-- `num_free_pages++`. -/
  | count
  /-- `spin_unlock`, with what is returned. -/
  | unlock (ret : Option Nat)
  /-- For good, with the page that was in hand. -/
  | stopped (why : Stop) (pp : Option Nat) (locked : Bool)

namespace AllocPc

/-- One statement: the memory it leaves and the next one. -/
def access (c : Config) (m : Mem) : AllocPc → Option (Mem × AllocPc)
  | .testRef pp =>
      if (m.pages pp).ppRef ≠ 0 then
        some (m, .stopped (.panic "page_free: pp_ref is nonzero") (some pp) false)
      else some (m, .testLink pp)
  | .testLink pp =>
      if (m.pages pp).ppLink ≠ none then
        some (m, .stopped (.panic "page_free: pp_link is not NULL") (some pp) false)
      else some (m, .acquire pp)
  | .head zero => if m.pageFreeList = none then some (m, .unlock none) else some (m, .take zero)
  | .take zero =>
      match m.pageFreeList with
      | none => some (m, .stopped .fault none true)
      | some pp => some (m, .unlink zero pp)
  | .unlink zero pp =>
      match m.pageFreeList with
      | none => some (m, .stopped .fault none true)
      | some q => some ({ m with pageFreeList := (m.pages q).ppLink }, .clear zero pp)
  | .clear zero pp =>
      some (m.modPage pp fun info => { info with ppLink := none },
        if zero then .wipe pp else .uncount pp)
  | .wipe pp =>
      match page2kva c pp with
      | .error why => some (m, .stopped why (some pp) true)
      | .ok kva => some (m.zeroPage kva, .uncount pp)
  | .uncount pp =>
      some ({ m with numFreePages := add32 m.numFreePages (2 ^ 32 - 1) }, .unlock (some pp))
  | .link pp => some (m.modPage pp fun info => { info with ppLink := m.pageFreeList }, .push pp)
  | .push pp => some ({ m with pageFreeList := some pp }, .count)
  | .count => some ({ m with numFreePages := add32 m.numFreePages 1 }, .unlock none)
  | _ => none

/-- Between the two calls of the lock. -/
def inside : AllocPc → Bool
  | .out => false
  | .testRef _ => false
  | .testLink _ => false
  | .acquire _ => false
  | .stopped _ _ locked => locked
  | _ => true

/-- The page a CPU has in hand. -/
def hand : AllocPc → List Nat
  | .testRef pp => [pp]
  | .testLink pp => [pp]
  | .acquire pp => [pp]
  | .clear _ pp => [pp]
  | .wipe pp => [pp]
  | .uncount pp => [pp]
  | .link pp => [pp]
  | .push pp => [pp]
  | .unlock ret => ret.toList
  | .stopped _ pp _ => pp.toList
  | _ => []

end AllocPc

/-- A CPU: where it stands, the pages it has besides, and what it still wants. -/
structure AllocThread where
  pc : AllocPc
  held : List Nat
  reqs : List PageReq

/-- The pages of a CPU. -/
def AllocThread.pages (t : AllocThread) : List Nat := t.pc.hand ++ t.held

/-- The next request.  One about a page the CPU does not have is none. -/
def allocRequest (m : Mem) (held : List Nat) (reqs : List PageReq) :
    PageReq → Instr Mem AllocThread
  | .alloc zero => .lock ⟨.head zero, held, reqs⟩
  | .free k =>
      match held[k]? with
      | none => .access m ⟨.out, held, reqs⟩
      | some pp => .access m ⟨.testRef pp, held.eraseIdx k, reqs⟩
  | .incref k =>
      match held[k]? with
      | none => .access m ⟨.out, held, reqs⟩
      | some pp => .access (incref pp m) ⟨.out, held, reqs⟩
  | .decref k =>
      match held[k]? with
      | none => .access m ⟨.out, held, reqs⟩
      | some pp =>
          let m := m.modPage pp fun info =>
            { info with ppRef := (info.ppRef + (2 ^ 16 - 1)) % 2 ^ 16 }
          if (m.pages pp).ppRef = 0 then .access m ⟨.testRef pp, held.eraseIdx k, reqs⟩
          else .access m ⟨.out, held, reqs⟩

/-- The program of every CPU. -/
def allocProg (c : Config) : Program Mem AllocThread := fun _ m t =>
  match t.pc, t.reqs with
  | .out, [] => .halt
  | .out, req :: reqs => allocRequest m t.held reqs req
  | .acquire pp, _ => .lock { t with pc := .link pp }
  | .unlock ret, _ => .unlock { t with pc := .out, held := ret.toList ++ t.held }
  | pc, _ =>
      match pc.access c m with
      | some (m, pc) => .access m { t with pc := pc }
      | none => .halt

/-! ## Alone -/

/-- Turns of the program when nobody else is there: the lock is always free. -/
def alone (c : Config) : Nat → Mem → AllocThread → Mem × AllocThread
  | 0, m, t => (m, t)
  | n + 1, m, t =>
      match allocProg c 0 m t with
      | .access m t => alone c n m t
      | .lock t => alone c n m t
      | .unlock t => alone c n m t
      | .halt => (m, t)

/-- A request, by the functions of `kernel/mem.c` as a whole. -/
def PageReq.run (c : Config) (m : Mem) (held : List Nat) : PageReq → Except Stop (Mem × List Nat)
  | .alloc zero => do
      let r ← pageAlloc c zero m
      .ok (r.2, r.1.toList ++ held)
  | .free k =>
      match held[k]? with
      | none => .ok (m, held)
      | some pp => do
          let m ← pageFree pp m
          .ok (m, held.eraseIdx k)
  | .incref k =>
      match held[k]? with
      | none => .ok (m, held)
      | some pp => .ok (Nctuos.incref pp m, held)
  | .decref k =>
      match held[k]? with
      | none => .ok (m, held)
      | some pp => do
          let last := ((m.pages pp).ppRef + (2 ^ 16 - 1)) % 2 ^ 16 = 0
          let m ← pageDecref pp m
          .ok (m, if last then held.eraseIdx k else held)

/-- `page_free`, from its first test. -/
theorem alone_pageFree (c : Config) {m m' : Mem} {pp : Nat} (held : List Nat) (reqs : List PageReq)
    (h : pageFree pp m = .ok m') :
    alone c 7 m ⟨.testRef pp, held, reqs⟩ = (m', ⟨.out, held, reqs⟩) := by
  rw [pageFree] at h
  split at h
  · cases h
  · rename_i href
    split at h
    · cases h
    · rename_i hlink
      cases h
      simp [alone, allocProg, AllocPc.access, not_not.mp href, not_not.mp hlink]

/-- A request that goes well. -/
theorem alone_eq_run (c : Config) {m m' : Mem} {held held' : List Nat} {req : PageReq}
    (reqs : List PageReq) (h : req.run c m held = .ok (m', held')) :
    ∃ n, alone c n m ⟨.out, held, req :: reqs⟩ = (m', ⟨.out, held', reqs⟩) := by
  cases req with
  | alloc zero =>
      obtain ⟨r, halloc, hr⟩ := bind_ok_iff.mp h
      cases hr
      rw [pageAlloc] at halloc
      split at halloc
      · rename_i hnone
        cases halloc
        exact ⟨3, by simp [alone, allocProg, allocRequest, AllocPc.access, hnone]⟩
      · rename_i pp hpp
        cases zero with
        | false =>
            cases halloc
            exact ⟨7, by simp [alone, allocProg, allocRequest, AllocPc.access, hpp]⟩
        | true =>
            obtain ⟨kva, hkva, hcount⟩ := bind_ok_iff.mp halloc
            cases hcount
            exact ⟨8, by simp [alone, allocProg, allocRequest, AllocPc.access, hpp, hkva]⟩
  | free k =>
      rw [PageReq.run] at h
      split at h
      · rename_i hnone
        cases h
        exact ⟨1, by simp [alone, allocProg, allocRequest, hnone]⟩
      · rename_i pp hpp
        obtain ⟨m₁, hfree, hret⟩ := bind_ok_iff.mp h
        cases hret
        refine ⟨8, ?_⟩
        rw [alone, allocProg]
        simp only [allocRequest, hpp]
        exact alone_pageFree c _ reqs hfree
  | incref k =>
      rw [PageReq.run] at h
      split at h
      · rename_i hnone
        cases h
        exact ⟨1, by simp [alone, allocProg, allocRequest, hnone]⟩
      · rename_i pp hpp
        cases h
        exact ⟨1, by simp [alone, allocProg, allocRequest, hpp]⟩
  | decref k =>
      rw [PageReq.run] at h
      split at h
      · rename_i hnone
        cases h
        exact ⟨1, by simp [alone, allocProg, allocRequest, hnone]⟩
      · rename_i pp hpp
        obtain ⟨m₁, hdecref, hret⟩ := bind_ok_iff.mp h
        cases hret
        rw [pageDecref] at hdecref
        split at hdecref
        · rename_i hlast
          refine ⟨8, ?_⟩
          rw [alone, allocProg]
          simp only [allocRequest, hpp, hlast, if_true]
          rw [if_pos (by simpa [Mem.modPage] using hlast)]
          exact alone_pageFree c _ reqs hdecref
        · rename_i hmore
          cases hdecref
          refine ⟨1, ?_⟩
          rw [alone, allocProg]
          simp only [allocRequest, hpp, hmore, if_false]
          rw [if_neg (by simpa [Mem.modPage] using hmore)]
          rfl

/-! ## The memory in the middle of a section -/

/-- `page_free_list` is the list `l` while `num_free_pages` is `n`, and the pages outside of it have
no `pp_link`, `skip` apart. -/
structure PagesIn (c : Config) (m : Mem) (l : List Nat) (n : Nat) (skip : Option Nat) : Prop where
  chain : Chain m.link m.pageFreeList l
  num : m.numFreePages = n
  ref : ∀ p ∈ l, (m.pages p).ppRef = 0
  used : ∀ p, c.Allocatable p → p ∉ l → some p ≠ skip → m.link p = none

/-- A change beside the list: of the contents of memory, and of the references of the pages `ps`. -/
structure Mem.Beside (m m' : Mem) (ps : List Nat) : Prop where
  link : m'.link = m.link
  head : m'.pageFreeList = m.pageFreeList
  num : m'.numFreePages = m.numFreePages
  ref : ∀ p, p ∉ ps → (m'.pages p).ppRef = (m.pages p).ppRef

section Lists

variable {c : Config} {m m' : Mem} {l : List Nat} {n : Nat} {skip : Option Nat} {pp : Nat}

theorem Mem.Beside.refl (m : Mem) (ps : List Nat) : m.Beside m ps :=
  ⟨rfl, rfl, rfl, fun _ _ => rfl⟩

theorem Mem.modPage_link (m : Mem) (pp : Nat) (f : PageInfo → PageInfo) :
    (m.modPage pp f).link = Function.update m.link pp (f (m.pages pp)).ppLink := by
  funext q
  by_cases hq : q = pp
  · subst hq
    simp [Mem.modPage, Mem.link]
  · simp [Mem.modPage, Mem.link, hq]

/-- A store to a `pp_link` leaves `pp_ref` alone. -/
theorem Mem.storeLink_ref (m : Mem) (pp : Nat) (v : Option Nat) (q : Nat) :
    ((m.modPage pp fun info => { info with ppLink := v }).pages q).ppRef = (m.pages q).ppRef := by
  by_cases hq : q = pp
  · subst hq
    simp [Mem.modPage]
  · simp [Mem.modPage, hq]

/-- `pp_ref` of one page. -/
theorem Mem.beside_modPage (m : Mem) {ps : List Nat} (hpp : pp ∈ ps) {f : PageInfo → PageInfo}
    (hf : ∀ info, (f info).ppLink = info.ppLink) : m.Beside (m.modPage pp f) ps where
  link := by
    rw [Mem.modPage_link, hf]
    exact Function.update_eq_self _ _
  head := rfl
  num := rfl
  ref p hp := by
    have hne : p ≠ pp := fun heq => hp (by rw [heq]; exact hpp)
    change (Function.update m.pages pp (f (m.pages pp)) p).ppRef = _
    rw [Function.update_of_ne hne]

namespace PagesIn

theorem of_freeList (h : FreeList c m l) : PagesIn c m l l.length none :=
  ⟨h.chain, h.num, h.ref, fun p hp hpl _ => h.used p hp hpl⟩

theorem freeList (h : PagesIn c m l l.length none) (halloc : ∀ p ∈ l, c.Allocatable p) :
    FreeList c m l :=
  ⟨h.chain, h.num, halloc, h.ref, fun p hp hpl => h.used p hp hpl (by simp)⟩

theorem beside {ps : List Nat} (h : PagesIn c m l n skip) (hm : m.Beside m' ps)
    (hps : ∀ p ∈ l, p ∉ ps) : PagesIn c m' l n skip where
  chain := by
    rw [hm.link, hm.head]
    exact h.chain
  num := hm.num.trans h.num
  ref p hp := (hm.ref p (hps p hp)).trans (h.ref p hp)
  used p hp hpl hskip := by
    rw [hm.link]
    exact h.used p hp hpl hskip

/-- `page_free_list = page_free_list->pp_link`. -/
theorem unlink (h : PagesIn c m (pp :: l) n none) :
    PagesIn c { m with pageFreeList := (m.pages pp).ppLink } l n (some pp) where
  chain := h.chain.tail
  num := h.num
  ref p hp := h.ref p (List.mem_cons_of_mem pp hp)
  used p hp hpl hskip := by
    refine h.used p hp ?_ (by simp)
    rw [List.mem_cons, not_or]
    exact ⟨fun heq => hskip (congrArg some heq), hpl⟩

/-- A store to the `pp_link` of the page in hand. -/
theorem store_link (h : PagesIn c m l n skip) (hskip : skip = none ∨ skip = some pp)
    (hpp : pp ∉ l) (v : Option Nat) :
    PagesIn c (m.modPage pp fun info => { info with ppLink := v }) l n (some pp) where
  chain := by
    rw [Mem.modPage_link]
    refine h.chain.congr fun y hy => Function.update_of_ne ?_ _ _
    rintro rfl
    exact hpp hy
  num := h.num
  ref p hp := (Mem.storeLink_ref m pp v p).trans (h.ref p hp)
  used p hp hpl hne := by
    have hne' : p ≠ pp := fun heq => hne (congrArg some heq)
    rw [Mem.modPage_link, Function.update_of_ne hne']
    refine h.used p hp hpl ?_
    rcases hskip with rfl | rfl
    · simp
    · exact hne

/-- A page without a link need not be skipped. -/
theorem no_skip (h : PagesIn c m l n (some pp)) (hpp : m.link pp = none) :
    PagesIn c m l n none where
  chain := h.chain
  num := h.num
  ref := h.ref
  used p hp hpl _ := by
    by_cases heq : p = pp
    · rw [heq]
      exact hpp
    · exact h.used p hp hpl (by simpa using heq)

/-- `page_free_list = pp`. -/
theorem push (h : PagesIn c m l n (some pp)) (hlink : m.link pp = m.pageFreeList)
    (href : (m.pages pp).ppRef = 0) :
    PagesIn c { m with pageFreeList := some pp } (pp :: l) n none where
  chain := by
    refine .cons ?_
    change Chain m.link (m.link pp) l
    rw [hlink]
    exact h.chain
  num := h.num
  ref p hp := by
    rcases List.mem_cons.mp hp with rfl | hp
    · exact href
    · exact h.ref p hp
  used p hp hpl _ := by
    rw [List.mem_cons, not_or] at hpl
    exact h.used p hp hpl.2 (by simpa using hpl.1)

/-- A store to `num_free_pages`. -/
theorem recount (h : PagesIn c m l n skip) (k : Nat) :
    PagesIn c { m with numFreePages := k } l k skip :=
  ⟨h.chain, rfl, h.ref, h.used⟩

end PagesIn

end Lists

/-- The memory before a statement, when the free pages are `l` and the CPU at the statement has the
lock.  `l` has the page in hand no more, or not yet. -/
def AllocPc.Mid (c : Config) (m : Mem) (l : List Nat) : AllocPc → Prop
  | .take _ => PagesIn c m l l.length none ∧ m.pageFreeList ≠ none
  | .unlink _ pp => PagesIn c m l l.length none ∧ m.pageFreeList = some pp
  | .clear _ pp => PagesIn c m l (l.length + 1) (some pp)
  | .wipe _ => PagesIn c m l (l.length + 1) none
  | .uncount _ => PagesIn c m l (l.length + 1) none
  | .push pp => PagesIn c m l l.length (some pp) ∧ m.link pp = m.pageFreeList
  | .count => ∃ n, l.length = n + 1 ∧ PagesIn c m l n none
  | _ => PagesIn c m l l.length none

/-- `page_free` goes on only with a page that nobody refers to. -/
def AllocPc.RefOk (m : Mem) : AllocPc → Prop
  | .testLink pp => (m.pages pp).ppRef = 0
  | .acquire pp => (m.pages pp).ppRef = 0
  | .link pp => (m.pages pp).ppRef = 0
  | .push pp => (m.pages pp).ppRef = 0
  | _ => True

/-- The one reason to stop. -/
def AllocPc.StopOk : AllocPc → Prop
  | .stopped why _ locked => why = .panic "page_free: pp_ref is nonzero" ∧ locked = false
  | _ => True

/-- How a statement of the section moves a page between the list and the hand. -/
inductive Moved : List Nat → List Nat → List Nat → List Nat → Prop
  | none {l hand : List Nat} : Moved l hand l hand
  | taken {l : List Nat} {pp : Nat} : Moved (pp :: l) [] l [pp]
  | given {l : List Nat} {pp : Nat} : Moved l [pp] (pp :: l) []

namespace AllocPc

variable {c : Config} {m m' : Mem} {l : List Nat} {pc pc' : AllocPc}

theorem RefOk.congr (h : pc.RefOk m)
    (hm : ∀ p ∈ pc.hand, (m'.pages p).ppRef = (m.pages p).ppRef) : pc.RefOk m' := by
  cases pc with
  | testLink pp | acquire pp | link pp | push pp => exact (hm pp List.mem_cons_self).trans h
  | _ => trivial

theorem Mid.beside {ps : List Nat} (h : pc.Mid c m l) (hm : m.Beside m' ps)
    (hps : ∀ p ∈ l, p ∉ ps) : pc.Mid c m' l := by
  cases pc with
  | take | unlink => exact ⟨h.1.beside hm hps, by rw [hm.head]; exact h.2⟩
  | push pp => exact ⟨h.1.beside hm hps, by rw [hm.link, hm.head]; exact h.2⟩
  | count =>
      obtain ⟨n, hn, hin⟩ := h
      exact ⟨n, hn, hin.beside hm hps⟩
  | _ => exact PagesIn.beside h hm hps

/-- Pages that are neither on the list nor in the hand that has the lock have no `pp_link`. -/
theorem Mid.link_eq_none (h : pc.Mid c m l) {p : Nat} (hp : c.Allocatable p) (hpl : p ∉ l)
    (hhand : p ∉ pc.hand) : m.link p = none := by
  cases pc with
  | take | unlink => exact h.1.used p hp hpl (by simp)
  | clear zero pp => exact PagesIn.used h p hp hpl (by simpa [hand] using hhand)
  | push pp => exact h.1.used p hp hpl (by simpa [hand] using hhand)
  | count =>
      obtain ⟨n, -, hin⟩ := h
      exact hin.used p hp hpl (by simp)
  | _ => exact PagesIn.used h p hp hpl (by simp)

theorem mid_of_not_inside (h : pc.inside = false) :
    pc.Mid c m l = PagesIn c m l l.length none := by
  cases pc <;> first | rfl | cases h

/-- A statement of the section. -/
theorem Mid.access (h : pc.Mid c m l) (hinside : pc.inside = true) (href : pc.RefOk m)
    (halloc : ∀ p ∈ l, c.Allocatable p) (hhand : ∀ p ∈ pc.hand, p ∉ l ∧ c.Allocatable p)
    (hstep : pc.access c m = some (m', pc')) :
    pc'.RefOk m' ∧ pc'.StopOk ∧ (∀ p, (m'.pages p).ppRef = (m.pages p).ppRef) ∧
      ∃ l', pc'.Mid c m' l' ∧ Moved l pc.hand l' pc'.hand := by
  have hlength : ∀ {n skip}, PagesIn c m l n skip → l.length < 2 ^ 15 := fun hin =>
    c.length_lt hin.chain.nodup fun p hp => (halloc p hp).lt
  cases pc with
  | head zero =>
      rw [AllocPc.access] at hstep
      split at hstep
      · cases hstep
        exact ⟨trivial, trivial, fun _ => rfl, l, h, .none⟩
      · rename_i hne
        cases hstep
        exact ⟨trivial, trivial, fun _ => rfl, l, ⟨h, hne⟩, .none⟩
  | take zero =>
      rw [AllocPc.access] at hstep
      split at hstep
      · rename_i hnone
        exact absurd hnone h.2
      · rename_i pp hpp
        cases hstep
        exact ⟨trivial, trivial, fun _ => rfl, l, ⟨h.1, hpp⟩, .none⟩
  | unlink zero pp =>
      obtain ⟨hin, hpp⟩ := h
      rw [AllocPc.access, hpp] at hstep
      cases hstep
      have hchain := hin.chain
      rw [hpp] at hchain
      obtain ⟨l', rfl, -⟩ := Chain.some_iff.mp hchain
      exact ⟨trivial, trivial, fun _ => rfl, l', hin.unlink, .taken⟩
  | clear zero pp =>
      obtain ⟨hpp, -⟩ := hhand pp List.mem_cons_self
      have hin := (PagesIn.store_link h (Or.inr rfl) hpp none).no_skip (by
        rw [Mem.modPage_link, Function.update_self])
      cases hstep
      cases zero with
      | false | true => exact ⟨trivial, trivial, Mem.storeLink_ref m pp _, l, hin, .none⟩
  | wipe pp =>
      obtain ⟨-, hpp⟩ := hhand pp List.mem_cons_self
      rw [AllocPc.access, page2kva_of_lt hpp.lt] at hstep
      cases hstep
      exact ⟨trivial, trivial, fun _ => rfl, l, ⟨h.chain, h.num, h.ref, h.used⟩, .none⟩
  | uncount pp =>
      cases hstep
      have hlt := hlength h
      have hnum : add32 m.numFreePages (2 ^ 32 - 1) = l.length := by
        rw [PagesIn.num h, add32]
        omega
      rw [hnum]
      exact ⟨trivial, trivial, fun _ => rfl, l, PagesIn.recount h _, .none⟩
  | link pp =>
      obtain ⟨hpp, -⟩ := hhand pp List.mem_cons_self
      cases hstep
      refine ⟨(Mem.storeLink_ref m pp _ pp).trans href, trivial,
        Mem.storeLink_ref m pp _, l, ⟨PagesIn.store_link h (Or.inl rfl) hpp _, ?_⟩, .none⟩
      rw [Mem.modPage_link, Function.update_self]
      rfl
  | push pp =>
      cases hstep
      exact ⟨trivial, trivial, fun _ => rfl, pp :: l,
        ⟨l.length, rfl, h.1.push h.2 href⟩, .given⟩
  | count =>
      obtain ⟨n, hn, hin⟩ := h
      cases hstep
      have hlt := hlength hin
      have hnum : add32 m.numFreePages 1 = l.length := by
        rw [hin.num, add32]
        omega
      rw [hnum]
      exact ⟨trivial, trivial, fun _ => rfl, l, hin.recount _, .none⟩
  | unlock ret => cases hstep
  | stopped why pp locked => cases hstep
  | _ => cases hinside

/-- A test of `page_free`, before it takes the lock.  The page is `pp`, which has no `pp_link`. -/
theorem access_outside (hinside : pc.inside = false) (href : pc.RefOk m)
    (hhand : ∀ p ∈ pc.hand, m.link p = none) (hstep : pc.access c m = some (m', pc')) :
    m' = m ∧ pc'.RefOk m ∧ pc'.StopOk ∧ pc'.hand = pc.hand := by
  cases pc with
  | testRef pp =>
      rw [access] at hstep
      split at hstep
      · cases hstep
        exact ⟨rfl, trivial, ⟨rfl, rfl⟩, rfl⟩
      · rename_i hzero
        cases hstep
        exact ⟨rfl, not_not.mp hzero, trivial, rfl⟩
  | testLink pp =>
      have hlink : (m.pages pp).ppLink = none := hhand pp List.mem_cons_self
      rw [access, if_neg (not_not.mpr hlink)] at hstep
      cases hstep
      exact ⟨rfl, href, trivial, rfl⟩
  | out => cases hstep
  | acquire pp => cases hstep
  | stopped why pp locked => cases hstep
  | _ => cases hinside

/-- A statement neither takes the lock nor gives it back. -/
theorem access_inside (hstep : pc.access c m = some (m', pc')) : pc'.inside = pc.inside := by
  cases pc with
  | testRef | testLink | head | take | unlink | wipe =>
      rw [access] at hstep
      split at hstep <;> cases hstep <;> rfl
  | clear zero pp =>
      cases hstep
      cases zero <;> rfl
  | _ => cases hstep <;> rfl

end AllocPc

/-! ## What the program does next -/

section Program

variable {c : Config} {m m' : Mem} {i : Nat} {t t' : AllocThread}

/-- Taking a page of one's own into the hand. -/
theorem perm_hand {held : List Nat} {k pp : Nat} (h : held[k]? = some pp) :
    (pp :: held.eraseIdx k).Perm held := by
  obtain ⟨hk, rfl⟩ := List.getElem?_eq_some_iff.mp h
  exact List.getElem_cons_eraseIdx_perm hk

/-- A request is for a page, or it concerns the references of the CPU's own pages. -/
theorem allocRequest_cases (m : Mem) (held : List Nat) (reqs : List PageReq) (req : PageReq) :
    (∃ zero, allocRequest m held reqs req = .lock ⟨.head zero, held, reqs⟩) ∨
      ∃ m' t', allocRequest m held reqs req = .access m' t' ∧ t'.pages.Perm held ∧
        (t'.pc = .out ∨ ∃ pp, t'.pc = .testRef pp) ∧ m.Beside m' held := by
  cases req with
  | alloc zero => exact Or.inl ⟨zero, rfl⟩
  | free k =>
      right
      rw [allocRequest]
      split
      · exact ⟨_, _, rfl, List.Perm.refl _, Or.inl rfl, .refl m _⟩
      · rename_i pp hpp
        exact ⟨_, _, rfl, perm_hand hpp, Or.inr ⟨pp, rfl⟩, .refl m _⟩
  | incref k =>
      right
      rw [allocRequest]
      split
      · exact ⟨_, _, rfl, List.Perm.refl _, Or.inl rfl, .refl m _⟩
      · rename_i pp hpp
        exact ⟨_, _, rfl, List.Perm.refl _, Or.inl rfl,
          Mem.beside_modPage m (List.mem_of_getElem? hpp) fun _ => rfl⟩
  | decref k =>
      right
      rw [allocRequest]
      split
      · exact ⟨_, _, rfl, List.Perm.refl _, Or.inl rfl, .refl m _⟩
      · rename_i pp hpp
        have hbeside := Mem.beside_modPage m (List.mem_of_getElem? hpp)
          (f := fun info => { info with ppRef := (info.ppRef + (2 ^ 16 - 1)) % 2 ^ 16 })
          fun _ => rfl
        dsimp only
        split
        · exact ⟨_, _, rfl, perm_hand hpp, Or.inr ⟨pp, rfl⟩, hbeside⟩
        · exact ⟨_, _, rfl, List.Perm.refl _, Or.inl rfl, hbeside⟩

/-- An access is one for a request, or a statement of the allocator. -/
theorem allocProg_access (h : allocProg c i m t = .access m' t') :
    (t.pc = .out ∧ t'.pages.Perm t.pages ∧ (t'.pc = .out ∨ ∃ pp, t'.pc = .testRef pp) ∧
      m.Beside m' t.pages) ∨
    ∃ pc', t.pc.access c m = some (m', pc') ∧ t' = { t with pc := pc' } := by
  rw [allocProg] at h
  split at h
  · cases h
  · rename_i hout _
    have hpages : t.pages = t.held := by rw [AllocThread.pages, hout]; rfl
    rw [hpages]
    obtain ⟨zero, heq⟩ | ⟨m₁, t₁, heq, hspec⟩ := allocRequest_cases m t.held _ _
    · cases heq.symm.trans h
    · cases heq.symm.trans h
      exact Or.inl ⟨hout, hspec⟩
  · cases h
  · cases h
  · split at h
    · rename_i haccess
      cases h
      exact Or.inr ⟨_, haccess, rfl⟩
    · cases h

theorem allocProg_lock (h : allocProg c i m t = .lock t') :
    t'.pages = t.pages ∧ t.pc.inside = false ∧
      ((∃ zero, t'.pc = .head zero) ∨ ∃ pp, t.pc = .acquire pp ∧ t'.pc = .link pp) := by
  rw [allocProg] at h
  split at h
  · cases h
  · rename_i hout _
    obtain ⟨zero, heq⟩ | ⟨m₁, t₁, heq, -⟩ := allocRequest_cases m t.held _ _
    · cases heq.symm.trans h
      rw [AllocThread.pages, AllocThread.pages, hout]
      exact ⟨rfl, rfl, Or.inl ⟨zero, rfl⟩⟩
    · cases heq.symm.trans h
  · rename_i pp hpc
    cases h
    rw [AllocThread.pages, AllocThread.pages, hpc]
    exact ⟨rfl, rfl, Or.inr ⟨pp, rfl, rfl⟩⟩
  · cases h
  · split at h <;> cases h

theorem allocProg_unlock (h : allocProg c i m t = .unlock t') :
    t'.pages = t.pages ∧ (∃ ret, t.pc = .unlock ret) ∧ t'.pc = .out := by
  rw [allocProg] at h
  split at h
  · cases h
  · obtain ⟨zero, heq⟩ | ⟨m₁, t₁, heq, -⟩ := allocRequest_cases m t.held _ _ <;>
      cases heq.symm.trans h
  · cases h
  · rename_i ret hpc
    cases h
    rw [AllocThread.pages, AllocThread.pages, hpc]
    exact ⟨rfl, ⟨ret, rfl⟩, rfl⟩
  · split at h <;> cases h

theorem allocProg_wellLocked (c : Config) :
    WellLocked (allocProg c) (fun t => t.pc.inside) where
  access i m t m' t' h := by
    rcases allocProg_access h with ⟨hout, -, hpc, -⟩ | ⟨pc', hstep, rfl⟩
    · rcases hpc with hpc | ⟨pp, hpc⟩ <;> simp [hout, hpc, AllocPc.inside]
    · exact AllocPc.access_inside hstep
  lock i m t t' h := by
    obtain ⟨-, houtside, hpc⟩ := allocProg_lock h
    refine ⟨houtside, ?_⟩
    rcases hpc with ⟨zero, hpc⟩ | ⟨pp, -, hpc⟩ <;> (rw [hpc]; rfl)
  unlock i m t t' h := by
    obtain ⟨-, ⟨ret, hpc⟩, hpc'⟩ := allocProg_unlock h
    rw [hpc, hpc']
    exact ⟨rfl, rfl⟩

end Program

/-! ## Who has which page -/

/-- The pages at each place: `none` is the list, `some i` is CPU `i`. -/
def places (s : Smp Mem AllocThread) (l : List Nat) : Option Nat → List Nat :=
  fun a => a.elim l fun i => (s.code i).pages

/-- The statement before which the owner of the lock stands. -/
def ownerPc (s : Smp Mem AllocThread) (owner : Option Nat) : AllocPc :=
  owner.elim .out fun i => (s.code i).pc

/-- Where a section begins. -/
def AllocPc.Entry : AllocPc → Prop
  | .head _ => True
  | .link _ => True
  | _ => False

/-- The free pages are `l`, and `whose` says where the pages `l₀` of the allocator are. -/
structure AllocInv (c : Config) (l₀ : List Nat) (s : Smp Mem AllocThread) (owner : Option Nat)
    (l : List Nat) (whose : Nat → Option (Option Nat)) : Prop where
  smp : Smp.Inv (fun t => t.pc.inside) s owner
  mid : (ownerPc s owner).Mid c s.shared l
  entry : ∀ i, (s.sys.pc i).phase = .acquiring → (s.code i).pc.Entry
  parts : Holdings (places s l) whose
  whole : ∀ p, whose p ≠ none ↔ p ∈ l₀
  ref : ∀ i, (s.code i).pc.RefOk s.shared
  stops : ∀ i, (s.code i).pc.StopOk

namespace AllocInv

variable {c : Config} {l₀ l l' : List Nat} {s s' : Smp Mem AllocThread} {owner owner' : Option Nat}
  {whose whose' : Nat → Option (Option Nat)} {i : Nat} {t : AllocThread}

theorem mem_whole (h : AllocInv c l₀ s owner l whose) {a : Option Nat} {p : Nat}
    (hp : p ∈ places s l a) : p ∈ l₀ := by
  rw [← h.whole, (h.parts.mem a p).mp hp]
  simp

/-- A page of a CPU is not on the list. -/
theorem notMem_list (h : AllocInv c l₀ s owner l whose) {p : Nat} (hp : p ∈ (s.code i).pages) :
    p ∉ l := fun hpl => absurd (h.parts.unique (a := none) (b := some i) hpl hp) (by simp)

/-- An idle CPU does not have the lock. -/
theorem owner_ne (h : AllocInv c l₀ s owner l whose) (hidle : (s.sys.pc i).phase = .idle) :
    owner ≠ some i := by
  rw [Ne, h.smp.owner_iff, hidle]
  simp

/-- The statement of the owner, after a turn of another CPU. -/
theorem ownerPc_update (hcode : s'.code = Function.update s.code i t) (howner : owner ≠ some i) :
    ownerPc s' owner = ownerPc s owner := by
  cases owner with
  | none => rfl
  | some j =>
      have hj : j ≠ i := fun heq => howner (congrArg some heq)
      rw [ownerPc, ownerPc, Option.elim_some, Option.elim_some, hcode, Function.update_of_ne hj]

/-- A turn that moves no page from place to place. -/
theorem places_perm (hcode : s'.code = Function.update s.code i t)
    (hpages : t.pages.Perm (s.code i).pages) (a : Option Nat) :
    (places s' l a).Perm (places s l a) := by
  cases a with
  | none => exact List.Perm.refl _
  | some j =>
      rw [places, places, Option.elim_some, Option.elim_some, hcode]
      by_cases hj : j = i
      · rw [hj, Function.update_self]
        exact hpages
      · rw [Function.update_of_ne hj]

/-- A turn of CPU `i`, by what it does to its own state. -/
theorem turn (h : AllocInv c l₀ s owner l whose) (hsmp : Smp.Inv (fun t => t.pc.inside) s' owner')
    (hpc : ∀ j, j ≠ i → s'.sys.pc j = s.sys.pc j) (hcode : s'.code = Function.update s.code i t)
    (hmid : (ownerPc s' owner').Mid c s'.shared l')
    (hentry : (s'.sys.pc i).phase = .acquiring → t.pc.Entry)
    (hparts : Holdings (places s' l') whose') (hwhole : ∀ p, whose' p ≠ none ↔ whose p ≠ none)
    (hrefs : ∀ p, p ∉ (s.code i).pages →
      (s'.shared.pages p).ppRef = (s.shared.pages p).ppRef)
    (href : t.pc.RefOk s'.shared) (hstop : t.pc.StopOk) :
    AllocInv c l₀ s' owner' l' whose' := by
  refine ⟨hsmp, hmid, fun j => ?_, hparts, fun p => (hwhole p).trans (h.whole p), fun j => ?_,
    fun j => ?_⟩
  all_goals
    rw [hcode]
    by_cases hj : j = i
  · rw [hj, Function.update_self]
    exact hentry
  · rw [Function.update_of_ne hj, hpc j hj]
    exact h.entry j
  · rw [hj, Function.update_self]
    exact href
  · rw [Function.update_of_ne hj]
    refine (h.ref j).congr fun p hp => hrefs p fun hpi => hj ?_
    exact Option.some.inj (h.parts.unique (a := some j) (b := some i)
      (List.mem_append_left _ hp) hpi)
  · rw [hj, Function.update_self]
    exact hstop
  · rw [Function.update_of_ne hj]
    exact h.stops j

/-- A turn that is only about the lock. -/
theorem lock_turn (h : AllocInv c l₀ s owner l whose)
    (hsmp : Smp.Inv (fun t => t.pc.inside) s' owner')
    (hpc : ∀ j, j ≠ i → s'.sys.pc j = s.sys.pc j) (hshared : s'.shared = s.shared)
    (hcode : s'.code = s.code) (hmid : (ownerPc s owner').Mid c s.shared l)
    (hentry : (s'.sys.pc i).phase = .acquiring → (s.code i).pc.Entry) :
    AllocInv c l₀ s' owner' l whose := by
  have hupdate : s'.code = Function.update s.code i (s.code i) := by
    rw [hcode, Function.update_eq_self]
  refine h.turn hsmp hpc hupdate ?_ hentry (h.parts.perm (places_perm hupdate (.refl _)))
    (fun _ => Iff.rfl) (fun _ _ => by rw [hshared]) ?_ (h.stops i)
  · rw [hshared, ownerPc, hcode]
    exact hmid
  · rw [hshared]
    exact h.ref i

/-- A statement outside, or a request. -/
theorem outside_turn (h : AllocInv c l₀ s owner l whose)
    (hsmp : Smp.Inv (fun t => t.pc.inside) s' owner) (howner : owner ≠ some i)
    (hpc : ∀ j, j ≠ i → s'.sys.pc j = s.sys.pc j) (hcode : s'.code = Function.update s.code i t)
    (hentry : (s'.sys.pc i).phase = .acquiring → t.pc.Entry)
    (hpages : t.pages.Perm (s.code i).pages)
    (hbeside : s.shared.Beside s'.shared (s.code i).pages) (href : t.pc.RefOk s'.shared)
    (hstop : t.pc.StopOk) : AllocInv c l₀ s' owner l whose := by
  refine h.turn hsmp hpc hcode ?_ hentry (h.parts.perm (places_perm hcode hpages))
    (fun _ => Iff.rfl) hbeside.ref href hstop
  rw [ownerPc_update hcode howner]
  exact h.mid.beside hbeside fun p hp hpi => h.notMem_list hpi hp

/-- The pages of the others, after a statement of the owner. -/
theorem places_of_ne (hcode : s'.code = Function.update s.code i t) {a : Option Nat}
    (hnone : a ≠ none) (hi : a ≠ some i) : places s' l' a = places s l a := by
  cases a with
  | none => exact absurd rfl hnone
  | some j =>
      have hj : j ≠ i := fun heq => hi (congrArg some heq)
      rw [places, places, Option.elim_some, Option.elim_some, hcode, Function.update_of_ne hj]

/-- What a statement of the section does to the places. -/
theorem parts_moved (h : AllocInv c l₀ s owner l whose) {pc : AllocPc}
    (hcode : s'.code = Function.update s.code i { s.code i with pc := pc })
    (hmoved : Moved l (s.code i).pc.hand l' pc.hand) :
    ∃ whose', Holdings (places s' l') whose' ∧ ∀ p, whose' p ≠ none ↔ whose p ≠ none := by
  have hi : places s' l' (some i) = pc.hand ++ (s.code i).held := by
    rw [places, Option.elim_some, hcode, Function.update_self]
    rfl
  have hi₀ : places s l (some i) = (s.code i).pc.hand ++ (s.code i).held := rfl
  have hwhole : ∀ {a b : Option Nat} {p : Nat}, p ∈ places s l a → ∀ q,
      Function.update whose p (some b) q ≠ none ↔ whose q ≠ none := by
    intro a b p hp q
    by_cases hq : q = p
    · rw [hq, Function.update_self, (h.parts.mem a p).mp hp]
      simp
    · rw [Function.update_of_ne hq]
  generalize hhand : (s.code i).pc.hand = hand at hmoved hi₀
  generalize pc.hand = hand' at hmoved hi
  cases hmoved with
  | none =>
      refine ⟨whose, h.parts.perm fun a => ?_, fun _ => Iff.rfl⟩
      by_cases ha : a = some i
      · rw [ha, hi, hi₀]
      · cases a with
        | none => exact List.Perm.refl _
        | some j => rw [places_of_ne (l := l) hcode (by simp) ha]
  | @taken l' pp =>
      refine ⟨_, h.parts.move (a := none) (b := some i) (p := pp) (by simp) (List.Perm.refl _) ?_
        fun a hnone ha => places_of_ne hcode hnone ha, hwhole (a := none) List.mem_cons_self⟩
      rw [hi, hi₀]
      exact List.Perm.refl _
  | @given l' pp =>
      refine ⟨_, h.parts.move (a := some i) (b := none) (p := pp) (by simp) ?_ (List.Perm.refl _)
        fun a ha hnone => places_of_ne hcode hnone ha, hwhole (a := some i) ?_⟩
      · rw [hi, hi₀]
        exact List.Perm.refl _
      · rw [hi₀]
        exact List.mem_cons_self

/-- Every turn. -/
theorem step (h : AllocInv c l₀ s owner l whose) (h₀ : ∀ p ∈ l₀, c.Allocatable p)
    {turn : Smp.Turn} (hstep : s.step (allocProg c) turn = some s') :
    ∃ owner' l' whose', AllocInv c l₀ s' owner' l' whose' := by
  obtain ⟨hpc, owner', hsmp, heffect⟩ := h.smp.step (allocProg_wellLocked c) hstep
  generalize turn.cpu = i at hpc heffect
  have hphase := h.smp.phase i
  cases heffect with
  | waits phase shared code =>
      refine ⟨owner, l, whose, h.lock_turn hsmp hpc shared code h.mid fun hacquiring => ?_⟩
      exact h.entry i (by rw [← phase]; exact hacquiring)
  | takes before after shared code =>
      have hentry := h.entry i before
      refine ⟨some i, l, whose, h.lock_turn hsmp hpc shared code ?_ fun _ => hentry⟩
      have hmid : PagesIn c s.shared l l.length none := h.mid
      rw [ownerPc, Option.elim_some]
      cases hcode : (s.code i).pc <;> rw [hcode] at hentry <;> first | exact hmid | exact hentry.elim
  | gives before after shared code =>
      rw [before] at hphase
      have hmid := h.mid
      rw [ownerPc, Option.elim_some, AllocPc.mid_of_not_inside hphase] at hmid
      exact ⟨none, l, whose, h.lock_turn hsmp hpc shared code hmid fun hacquiring => by
        rw [after] at hacquiring
        cases hacquiring⟩
  | @locks _ t next before after shared code =>
      obtain ⟨hpages, -, hentry⟩ := allocProg_lock next
      have href := h.ref i
      refine ⟨owner, l, whose, h.outside_turn hsmp (h.owner_ne before) hpc code (fun _ => ?_)
        (List.Perm.of_eq hpages) (by rw [shared]; exact .refl _ _) ?_ ?_⟩
      all_goals rcases hentry with ⟨zero, hentry⟩ | ⟨pp, hacquire, hentry⟩ <;> rw [hentry]
      all_goals try trivial
      rw [shared]
      rw [hacquire] at href
      exact href
  | @unlocks t next before after shared code =>
      obtain ⟨hpages, ⟨ret, hret⟩, hout⟩ := allocProg_unlock next
      have hmid := h.mid
      rw [ownerPc, Option.elim_some, hret] at hmid
      refine ⟨some i, l, whose, h.turn hsmp hpc code ?_ (fun hacquiring => ?_)
        (h.parts.perm (places_perm code (List.Perm.of_eq hpages))) (fun _ => Iff.rfl)
        (fun _ _ => by rw [shared]) ?_ ?_⟩
      · rw [ownerPc, Option.elim_some, code, Function.update_self, hout, shared]
        exact hmid
      · rw [after] at hacquiring
        cases hacquiring
      · rw [hout]
        trivial
      · rw [hout]
        trivial
  | @access _ m' t next sys phase shared code =>
      have hentry : (s'.sys.pc i).phase = .acquiring → t.pc.Entry := by
        intro hacquiring
        rw [sys] at hacquiring
        rcases phase with hphase | hphase <;> rw [hacquiring] at hphase <;> cases hphase
      rcases allocProg_access next with ⟨hout, hpages, hnext, hbeside⟩ | ⟨pc', haccess, rfl⟩
      · -- a request, made from outside
        have hidle : (s.sys.pc i).phase = .idle := by
          refine phase.resolve_right fun hinside => ?_
          rw [hinside, hout] at hphase
          cases hphase
        rw [← shared] at hbeside
        refine ⟨owner, l, whose, h.outside_turn hsmp (h.owner_ne hidle) hpc code hentry hpages
          hbeside ?_ ?_⟩
        all_goals rcases hnext with hnext | ⟨pp, hnext⟩ <;> rw [hnext] <;> trivial
      rcases phase with hidle | hinside
      · -- a test before the lock: the page is this CPU's own, whoever has the lock
        rw [hidle] at hphase
        have howner := h.owner_ne hidle
        have hlink : ∀ p ∈ (s.code i).pc.hand, s.shared.link p = none := by
          intro p hp
          have hpi : p ∈ places s l (some i) := List.mem_append_left _ hp
          refine h.mid.link_eq_none (h₀ p (h.mem_whole hpi)) (h.notMem_list hpi) fun hpo => ?_
          cases owner with
          | none => cases hpo
          | some j =>
              have hpj : p ∈ places s l (some j) := List.mem_append_left _ hpo
              exact howner (h.parts.unique hpj hpi)
        obtain ⟨rfl, href, hstop, hhand⟩ :=
          AllocPc.access_outside hphase (h.ref i) hlink haccess
        refine ⟨owner, l, whose, h.outside_turn hsmp howner hpc code hentry ?_ ?_ ?_ hstop⟩
        · rw [AllocThread.pages, AllocThread.pages, hhand]
        · rw [shared]
          exact .refl _ _
        · rw [shared]
          exact href
      · -- a statement of the section
        rw [hinside] at hphase
        obtain rfl := h.smp.owner_of_inside hinside
        have hmid := h.mid
        rw [ownerPc, Option.elim_some] at hmid
        have hhand : ∀ p ∈ (s.code i).pc.hand, p ∉ l ∧ c.Allocatable p := by
          intro p hp
          have hpi : p ∈ places s l (some i) := List.mem_append_left _ hp
          exact ⟨h.notMem_list hpi, h₀ p (h.mem_whole hpi)⟩
        obtain ⟨href, hstop, hrefs, l', hmid', hmoved⟩ := hmid.access hphase (h.ref i)
          (fun p hp => h₀ p (h.mem_whole (a := none) hp)) hhand haccess
        obtain ⟨whose', hparts, hwhole⟩ := h.parts_moved code hmoved
        refine ⟨some i, l', whose', h.turn hsmp hpc code ?_ hentry hparts hwhole (fun p _ => ?_) ?_
          hstop⟩
        · rw [ownerPc, Option.elim_some, code, Function.update_self, shared]
          exact hmid'
        · rw [shared]
          exact hrefs p
        · rw [shared]
          exact href

end AllocInv

/-! ## No page is shared -/

/-- Nobody has a page, and everybody has requests. -/
def allocStart (lk : Spinlock) (m : Mem) (reqs : Nat → List PageReq) : Smp Mem AllocThread :=
  ⟨LockSys.init lk, m, fun i => ⟨.out, [], reqs i⟩⟩

theorem AllocInv.start {c : Config} {m : Mem} {l₀ : List Nat} (lk : Spinlock) (h : FreeList c m l₀)
    (reqs : Nat → List PageReq) :
    AllocInv c l₀ (allocStart lk m reqs) none l₀ fun p => if p ∈ l₀ then some none else none where
  smp := ⟨.init lk, fun _ => rfl⟩
  mid := PagesIn.of_freeList h
  entry i hi := by cases hi
  parts := by
    refine ⟨fun a => ?_, fun a p => ?_⟩
    · cases a with
      | none => exact h.chain.nodup
      | some i => exact List.nodup_nil
    · cases a with
      | none => simp [places]
      | some i => simp [places, allocStart, AllocThread.pages, AllocPc.hand]
  whole p := by simp
  ref _ := trivial
  stops _ := trivial

/-- What holds at every moment, when the allocator was given the pages `l₀`. -/
structure PagesApart (c : Config) (l₀ : List Nat) (s : Smp Mem AllocThread) : Prop where
  /-- No page is with two CPUs, or twice with one. -/
  apart : ∀ i j p, p ∈ (s.code i).pages → p ∈ (s.code j).pages → i = j
  nodup : ∀ i, (s.code i).pages.Nodup
  /-- While the lock is free: the list is one, and has the pages that nobody has. -/
  list : s.sys.lk.locked = 0 → ∃ l, FreeList c s.shared l ∧
    (∀ p ∈ l, ∀ i, p ∉ (s.code i).pages) ∧
    ∀ p, p ∈ l₀ ↔ p ∈ l ∨ ∃ i, p ∈ (s.code i).pages
  /-- A CPU is stopped for one reason only, and never with the lock. -/
  stops : ∀ i why pp locked, (s.code i).pc = .stopped why pp locked →
    why = .panic "page_free: pp_ref is nonzero" ∧ locked = false
  lock : ∀ i f held why, s.sys.pc i ≠ .stopped f held why

/-- **No page is shared.**  Any number of CPUs allocate pages, count references to them and give them
back, in every order of their statements. -/
theorem pages_never_shared {c : Config} {m : Mem} {l₀ : List Nat} (lk : Spinlock)
    (h : FreeList c m l₀) (reqs : Nat → List PageReq) {ts : List Smp.Turn} {s : Smp Mem AllocThread}
    (hrun : Run (Smp.Steps (allocProg c)) (allocStart lk m reqs) ts s) : PagesApart c l₀ s := by
  obtain ⟨owner, l, whose, hinv⟩ : ∃ owner l whose, AllocInv c l₀ s owner l whose :=
    Run.invariant (I := fun s => ∃ owner l whose, AllocInv c l₀ s owner l whose)
      (fun s t s' hinv hstep => by
        obtain ⟨owner, l, whose, hinv⟩ := hinv
        exact hinv.step h.alloc hstep)
      hrun ⟨none, l₀, _, .start lk h reqs⟩
  refine ⟨fun i j p hi hj => ?_, fun i => hinv.parts.nodup (some i), fun hfree => ?_,
    fun i why pp locked hstopped => ?_, fun i f held why hstopped => ?_⟩
  · exact Option.some.inj (hinv.parts.unique (a := some i) (b := some j) hi hj)
  · obtain rfl := hinv.smp.lock.locked.mp hfree
    have hin : PagesIn c s.shared l l.length none := hinv.mid
    refine ⟨l, hin.freeList fun p hp => h.alloc p (hinv.mem_whole (a := none) hp),
      fun p hp i hpi => hinv.notMem_list hpi hp, fun p => ⟨fun hp => ?_, ?_⟩⟩
    · obtain ⟨a, ha⟩ := Option.ne_none_iff_exists'.mp ((hinv.whole p).mpr hp)
      have hmem := (hinv.parts.mem a p).mpr ha
      cases a with
      | none => exact Or.inl hmem
      | some i => exact Or.inr ⟨i, hmem⟩
    · rintro (hp | ⟨i, hp⟩)
      · exact hinv.mem_whole (a := none) hp
      · exact hinv.mem_whole (a := some i) hp
  · have hstop := hinv.stops i
    rw [hstopped] at hstop
    exact hstop
  · have hfits := hinv.smp.phase i
    rw [hstopped] at hfits
    exact hfits

/-- CPU 0 has been given page 1 and is between the two tests of `page_free` with it, while CPU 1 is
taking page 2 off the list. -/
theorem pages_never_shared_two :
    let m : Mem := ⟨fun p => ⟨if p = 1 then some 2 else none, 0⟩, some 1, 2, fun _ _ => 0, 0, []⟩
    ∃ ts s, Run (Smp.Steps (allocProg .small)) (allocStart ⟨0, none, fun _ => 0⟩ m
        fun i => if i = 0 then [.alloc false, .free 0] else [.alloc true]) ts s ∧
      PagesApart .small [1, 2] s ∧ (s.code 0).pc = .testLink 1 ∧ (s.code 1).pc = .clear true 2 := by
  intro m
  have hlist : FreeList .small m [1, 2] := by
    refine ⟨.cons (.cons .nil), rfl, ?_, fun p _ => rfl, fun p _ hp => ?_⟩
    · intro p hp
      have hcases : p = 1 ∨ p = 2 := by simpa using hp
      refine Or.inl ?_
      rcases hcases with rfl | rfl <;> decide
    · have hp1 : p ≠ 1 := fun heq => hp (by simp [heq])
      change (if p = 1 then some 2 else none) = none
      rw [if_neg hp1]
  let go (i n : Nat) : List Smp.Turn := List.replicate n (.spinlock i (fun _ => 0) 0)
  let code (i n : Nat) : List Smp.Turn := List.replicate n (.program i)
  let ts := code 0 1 ++ go 0 2 ++ code 1 1 ++ go 1 4 ++ go 0 12 ++ code 0 6 ++ go 1 1 ++ go 0 5 ++
    go 1 13 ++ code 1 2 ++ code 0 2 ++ code 1 1
  let start := allocStart ⟨0, none, fun _ => 0⟩ m
    fun i => if i = 0 then [.alloc false, .free 0] else [.alloc true]
  have hlast : (ts.foldlM (Smp.step (allocProg .small)) start).map
      (fun s => ((s.code 0).pc, (s.code 1).pc)) = some (.testLink 1, .clear true 2) := by
    rfl
  obtain ⟨s, hturns, hs⟩ := Option.map_eq_some_iff.mp hlast
  have hrun := Run.of_foldlM hturns
  exact ⟨ts, s, hrun, pages_never_shared _ hlist _ hrun, congrArg Prod.fst hs,
    congrArg Prod.snd hs⟩

end Nctuos
