import Nctuos.PageMap
import Nctuos.Lib.Threads

/-!
# The free list rethreaded: `check_page_free_list`

Before the kernel's own page directory is loaded only the first four megabytes of memory are
mapped, so `check_page_free_list(1)` moves the free pages that are mapped to the front of
`page_free_list`.  It does so in place: two lists, headed by the locals `pp1` and `pp2`, are
built through the links of the list it is walking along, each by a pointer `tp[0]` or `tp[1]`
to where its next page is to be hung.  At the end the second list is hung behind the first.

The walk is safe because a page's link is written only after the page has been left behind:
what is ahead is still threaded as it was (`Rethreading`, the invariant of the loop).  The
result is the stable partition of the list (`free_list_stably_partitioned`).

The loop of the source does not end on a list that does not; here it has `fuel`, and comes to
its end whenever that is at least the length of the list.
-/

namespace Nctuos

open Lib

/-! ## The code -/

/-- The two local heads. -/
inductive HeadVar
  | pp1
  | pp2
  deriving DecidableEq

/-- What the links and the two heads hold, and where `tp[0]` and `tp[1]` point. -/
structure Threads where
  cells : Place HeadVar Nat → Option Nat
  tp : Bool → Place HeadVar Nat

/-- `PDX(page2pa(pp)) >= pdx_limit`. -/
def pagetype (pdxLimit pp : Nat) : Bool := decide (pdxLimit ≤ (pdx (page2pa pp) : Nat))

/-- The locals when the loop starts; nobody has set `pp1` and `pp2`. -/
def Threads.start (m : Mem) (pp1 pp2 : Option Nat) : Threads where
  cells
    | .var .pp1 => pp1
    | .var .pp2 => pp2
    | .link p => m.link p
  tp
    | false => .var .pp1
    | true => .var .pp2

/-- One turn: `*tp[pagetype] = pp; tp[pagetype] = &pp->pp_link`. -/
def Threads.turn (pdxLimit : Nat) (s : Threads) (pp : Nat) : Threads where
  cells := Function.update s.cells (s.tp (pagetype pdxLimit pp)) (some pp)
  tp := Function.update s.tp (pagetype pdxLimit pp) (.link pp)

/-- The loop from `pp` on; `none` if it takes more than `fuel` turns. -/
def rethreadLoop (pdxLimit : Nat) : Nat → Option Nat → Threads → Option Threads
  | _, none, s => some s
  | 0, some _, _ => none
  | fuel + 1, some pp, s =>
      rethreadLoop pdxLimit fuel ((s.turn pdxLimit pp).cells (.link pp)) (s.turn pdxLimit pp)

/-- `*tp[1] = 0; *tp[0] = pp2`. -/
def Threads.splice (s : Threads) : Place HeadVar Nat → Option Nat :=
  let cells := Function.update s.cells (s.tp true) none
  Function.update cells (s.tp false) (cells (.var .pp2))

/-- The memory with these links, and with `page_free_list = pp1`. -/
def Mem.relink (m : Mem) (cells : Place HeadVar Nat → Option Nat) : Mem :=
  { m with
    pages := fun p => { m.pages p with ppLink := cells (.link p) }
    pageFreeList := cells (.var .pp1) }

/-- The part of `check_page_free_list` that is done if `only_low_memory`. -/
def rethread (pdxLimit fuel : Nat) (pp1 pp2 : Option Nat) (m : Mem) : Option Mem :=
  (rethreadLoop pdxLimit fuel m.pageFreeList (.start m pp1 pp2)).map fun s => m.relink s.splice

/-! ## The invariant of the loop -/

/-- The pages of one type among those already passed. -/
def ofType (pdxLimit : Nat) (t : Bool) (l : List Nat) : List Nat :=
  l.filter fun p => pagetype pdxLimit p = t

/-- The head of the list of one type. -/
def headVar : Bool → HeadVar
  | false => .pp1
  | true => .pp2

/-- The pages `done` have been hung on their lists, and `rest` is still ahead, threaded as
it was; `links` are the links before the loop. -/
structure Rethreading (pdxLimit : Nat) (links : Nat → Option Nat) (s : Threads)
    (done rest : List Nat) : Prop where
  nodup : (done ++ rest).Nodup
  built : ∀ t, Seg s.cells (.var (headVar t)) (ofType pdxLimit t done) (s.tp t)
  ahead : ∀ p ∉ done, s.cells (.link p) = links p

section Loop

variable {pdxLimit : Nat} {links : Nat → Option Nat} {s : Threads} {done rest : List Nat} {pp : Nat}

theorem ofType_append (t : Bool) (l l' : List Nat) :
    ofType pdxLimit t (l ++ l') = ofType pdxLimit t l ++ ofType pdxLimit t l' :=
  List.filter_append _ _

theorem ofType_self (pp : Nat) : ofType pdxLimit (pagetype pdxLimit pp) [pp] = [pp] := by
  simp [ofType]

theorem ofType_other {t : Bool} (h : t ≠ pagetype pdxLimit pp) : ofType pdxLimit t [pp] = [] := by
  simp [ofType, Ne.symm h]

section Rethreading

variable (h : Rethreading pdxLimit links s done rest)

include h

theorem Rethreading.nodup_ofType (t : Bool) : (ofType pdxLimit t done).Nodup :=
  (List.nodup_append.mp h.nodup).1.filter _

/-- A page is on the list of its own type only. -/
theorem tp_ne_places {t t' : Bool} (hne : t ≠ t') :
    s.tp t ∉ places (.var (headVar t')) (ofType pdxLimit t' done) := by
  intro hmem
  have htail := (h.built t).tail_mem
  generalize s.tp t = q at hmem htail
  cases q with
  | var x =>
      simp only [places, List.mem_cons, Place.var.injEq, List.mem_map, reduceCtorEq, and_false,
        exists_false, or_false] at hmem htail
      rw [hmem] at htail
      cases t <;> cases t' <;> simp_all [headVar]
  | link p =>
      rw [link_mem_places] at hmem htail
      simp only [ofType, List.mem_filter, decide_eq_true_eq] at hmem htail
      exact hne (htail.2.symm.trans hmem.2)

/-- The place a page is hung at is not the link of a page that is still ahead. -/
theorem tp_ne_link (t : Bool) {p : Nat} (hp : p ∉ done) : s.tp t ≠ .link p := by
  intro heq
  have htail := (h.built t).tail_mem
  rw [heq, link_mem_places] at htail
  exact hp (List.mem_filter.mp htail).1

theorem Rethreading.turn_link (pp : Nat) {p : Nat} (hp : p ∉ done) :
    (s.turn pdxLimit pp).cells (.link p) = links p :=
  (Function.update_of_ne (tp_ne_link h _ hp).symm _ _).trans (h.ahead p hp)

end Rethreading

theorem Rethreading.turn (h : Rethreading pdxLimit links s done (pp :: rest)) :
    Rethreading pdxLimit links (s.turn pdxLimit pp) (done ++ [pp]) rest := by
  refine ⟨by simpa using h.nodup, fun t => ?_, fun p hp => ?_⟩
  · rw [ofType_append]
    by_cases ht : t = pagetype pdxLimit pp
    · -- the list of the type of `pp` gets longer
      subst ht
      rw [ofType_self]
      simp only [Threads.turn, Function.update_self]
      exact (h.built _).snoc (nodup_places (h.nodup_ofType _)) pp
    · rw [ofType_other ht, List.append_nil]
      simp only [Threads.turn, Function.update_of_ne ht]
      exact (h.built t).frame (tp_ne_places h (Ne.symm ht)) _
  · rw [List.mem_append, not_or] at hp
    exact h.turn_link pp hp.1

/-- The loop comes to its end with all pages hung on their lists. -/
theorem rethreadLoop_spec {fuel : Nat} {head : Option Nat}
    (h : Rethreading pdxLimit links s done rest) (hchain : Chain links head rest)
    (hfuel : rest.length ≤ fuel) :
    ∃ s', rethreadLoop pdxLimit fuel head s = some s' ∧
      Rethreading pdxLimit links s' (done ++ rest) [] := by
  induction rest generalizing fuel head s done with
  | nil =>
      obtain rfl := hchain.head_eq
      refine ⟨s, ?_, by simpa using h⟩
      cases fuel <;> rfl
  | cons pp rest ih =>
      obtain rfl := hchain.head_eq
      cases fuel with
      | zero => simp at hfuel
      | succ fuel =>
          have hnew : pp ∉ done := fun hmem =>
            List.disjoint_of_nodup_append h.nodup hmem List.mem_cons_self
          obtain ⟨s', hloop, hdone⟩ := ih h.turn hchain.tail (by simpa using hfuel)
          refine ⟨s', ?_, by simpa using hdone⟩
          -- the link of `pp` is read after the turn, which has not written it
          rw [List.head?_cons, rethreadLoop, h.turn_link pp hnew]
          exact hloop

end Loop

/-! ## The two lists put together -/

section Splice

variable {pdxLimit : Nat} {links : Nat → Option Nat} {s : Threads} {l : List Nat}

/-- The second list ends, and hangs behind the first. -/
theorem Rethreading.splice (h : Rethreading pdxLimit links s l []) :
    Chain (fun p => s.splice (.link p)) (s.splice (.var .pp1))
      (ofType pdxLimit false l ++ ofType pdxLimit true l) := by
  have hends := (h.built true).close (nodup_places (h.nodup_ofType true)) none
  have hhangs := ((h.built false).frame (tp_ne_places h (Ne.symm Bool.false_ne_true)) none).close
    (nodup_places (h.nodup_ofType false)) (Function.update s.cells (s.tp true) none (.var .pp2))
  -- the place the second list is hung at is none of its own
  have hkept : Path (fun p => s.splice (.link p))
      (Function.update s.cells (s.tp true) none (.var .pp2)) (ofType pdxLimit true l) none := by
    refine hends.congr fun p hp => Function.update_of_ne (fun heq => ?_) _ _
    refine tp_ne_places h Bool.false_ne_true ?_
    rw [← heq]
    exact link_mem_places.mpr hp
  refine Path.chain hhangs ?_
  have hchain := hkept.chain .nil
  rw [List.append_nil] at hchain
  exact hchain

theorem splice_link (h : Rethreading pdxLimit links s l []) {p : Nat} (hp : p ∉ l) :
    s.splice (.link p) = links p :=
  (Function.update_of_ne (tp_ne_link h false hp).symm _ _).trans
    ((Function.update_of_ne (tp_ne_link h true hp).symm _ _).trans (h.ahead p hp))

end Splice

/-- **The free list is stably partitioned.**  Whatever `pp1` and `pp2` hold at first, the loop
and the splice leave a list that has first the pages below four megabytes and then the others,
both in their old order; nothing but the links of these pages and the head has changed. -/
theorem free_list_stably_partitioned {m : Mem} {l : List Nat} {fuel : Nat} (pp1 pp2 : Option Nat)
    (hlist : Chain m.link m.pageFreeList l) (hfuel : l.length ≤ fuel) :
    ∃ m', rethread 1 fuel pp1 pp2 m = some m' ∧
      Chain m'.link m'.pageFreeList
        (l.filter (fun p => (pdx (page2pa p) : Nat) < 1) ++
          l.filter fun p => ¬ (pdx (page2pa p) : Nat) < 1) ∧
      (∀ p ∉ l, m'.link p = m.link p) ∧ (∀ p, (m'.pages p).ppRef = (m.pages p).ppRef) ∧
      m'.numFreePages = m.numFreePages ∧ m'.ram = m.ram := by
  have hstart : Rethreading 1 m.link (.start m pp1 pp2) [] l := by
    refine ⟨hlist.nodup, fun t => ?_, fun p _ => rfl⟩
    cases t with
    | false => exact .nil _
    | true => exact .nil _
  obtain ⟨s, hloop, hdone⟩ := rethreadLoop_spec hstart hlist hfuel
  rw [List.nil_append] at hdone
  refine ⟨m.relink s.splice, by rw [rethread, hloop, Option.map_some], ?_,
    fun p hp => splice_link hdone hp, fun p => rfl, rfl, rfl⟩
  have hlow : ofType 1 false l = l.filter fun p => (pdx (page2pa p) : Nat) < 1 :=
    List.filter_congr fun p _ => decide_eq_decide.mpr (by
      rw [pagetype, decide_eq_false_iff_not, Nat.not_le])
  have hhigh : ofType 1 true l = l.filter fun p => ¬ (pdx (page2pa p) : Nat) < 1 :=
    List.filter_congr fun p _ => decide_eq_decide.mpr (by
      rw [pagetype, decide_eq_true_iff, Nat.not_lt])
  rw [← hlow, ← hhigh]
  exact hdone.splice

/-- Three free pages, the middle one of them above four megabytes. -/
def Mem.threeFree : Mem := (((Mem.zeroed fun _ _ => 0).give 5).give 1024).give 7

theorem three_free_pages_partitioned :
    ∃ m', rethread 1 3 (some 0) none .threeFree = some m' ∧
      Chain m'.link m'.pageFreeList [7, 5, 1024] := by
  have hlist : Chain Mem.threeFree.link Mem.threeFree.pageFreeList [7, 1024, 5] :=
    .cons (.cons (.cons .nil))
  obtain ⟨m', hrun, hchain, -⟩ :=
    free_list_stably_partitioned (some 0) none hlist (by decide : [7, 1024, 5].length ≤ 3)
  exact ⟨m', hrun, hchain⟩

end Nctuos
