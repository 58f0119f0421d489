import Mathlib.Data.List.Pairwise
import Mathlib.Order.Lattice

/-!
# Watermarks over a queue of places

Items of several series go through places. An open place takes items; a closed one waits in a
queue, which is drained from its front. The items of a place that is drained are done, and the
mark of a series among them is set to the time of one of them.

`Valid` says that the items of a series wait in the order of time and that no mark has reached
an item that waits. Then every item up to the mark of its series is done, and a mark that is
set again is raised.
-/

@[ext] structure Pipeline (I S P T : Type*) where
  Item : I → Prop
  At : I → P → Prop
  queue : List P
  Open : P → Prop
  Done : I → Prop
  mark : S → Option T

namespace Pipeline

open List

variable {I S P T : Type*} {series : I → S} {time : I → T} {start : T}

variable (w : Pipeline I S P T)

def Waits (p : P) : Prop := p ∈ w.queue ∨ w.Open p

/-- The items of a series at `p` are earlier than those at `q`. -/
def Earlier [LT T] (series : I → S) (time : I → T) (w : Pipeline I S P T) (p q : P) : Prop :=
  ∀ i j, w.At i p → w.At j q → series i = series j → time i < time j

/-- The items are in order; `start` is the mark of a series nothing of which is done. -/
structure Valid [LinearOrder T] (series : I → S) (time : I → T) (start : T)
    (w : Pipeline I S P T) : Prop where
  item : ∀ i p, w.At i p → w.Item i
  waiting : ∀ i, w.Item i → w.Done i ∨ ∃ p, w.At i p ∧ w.Waits p
  ordered : w.queue.Pairwise (w.Earlier series time)
  last : ∀ p ∈ w.queue, ∀ q, w.Open q → w.Earlier series time p q
  above : ∀ i p, w.At i p → w.Waits p → ∀ l, w.mark (series i) = some l → l < time i
  mark_le : ∀ s l, w.mark s = some l → l ≤ start ∨ ∃ i, w.Item i ∧ series i = s ∧ l ≤ time i

def put (i : I) (q : P) : Pipeline I S P T :=
  { w with
    Item := fun j => w.Item j ∨ j = i
    At := fun j p => w.At j p ∨ (j = i ∧ p = q) }

def opened (q : P) : Pipeline I S P T :=
  { w with Open := fun p => w.Open p ∨ p = q }

def closed (q : P) : Pipeline I S P T :=
  { w with
    queue := w.queue ++ [q]
    Open := fun p => w.Open p ∧ p ≠ q }

def requeued (queue : List P) : Pipeline I S P T :=
  { w with queue := queue }

def moved (f : P → Option P) (queue : List P) : Pipeline I S P T :=
  { w with
    At := fun i p' => ∃ p, w.At i p ∧ f p = some p'
    queue := queue }

def drained (queue : List P) (Done : I → Prop) (mark : S → Option T) :
    Pipeline I S P T :=
  { w with
    queue := queue
    Done := Done
    mark := mark }

variable [LinearOrder T] {w : Pipeline I S P T}

theorem Valid.done (h : w.Valid series time start) {i : I} (hi : w.Item i) {l : T}
    (hmark : w.mark (series i) = some l) (hle : time i ≤ l) : w.Done i := by
  refine (h.waiting i hi).resolve_right ?_
  rintro ⟨p, hat, hwaits⟩
  exact absurd (h.above i p hat hwaits l hmark) (not_lt.2 hle)

variable {q : P}

section

variable (h : w.Valid series time start)
include h

theorem Valid.put {i : I} (hopen : w.Open q) (hqueue : q ∉ w.queue)
    (hstart : start < time i) (hlate : ∀ j, w.Item j → series j = series i → time j < time i) :
    (w.put i q).Valid series time start where
  item j p hat := by
    rcases hat with hat | ⟨rfl, -⟩
    · exact Or.inl (h.item j p hat)
    · exact Or.inr rfl
  waiting j hj := by
    rcases hj with hj | rfl
    · refine (h.waiting j hj).imp_right ?_
      rintro ⟨p, hat, hwaits⟩
      exact ⟨p, Or.inl hat, hwaits⟩
    · exact Or.inr ⟨q, Or.inr ⟨rfl, rfl⟩, Or.inr hopen⟩
  ordered := by
    refine h.ordered.imp_of_mem fun {p p'} hp hp' hearlier a b ha hb hab => ?_
    have hap := ha.resolve_right fun heq => hqueue (heq.2 ▸ hp)
    have hbp := hb.resolve_right fun heq => hqueue (heq.2 ▸ hp')
    exact hearlier a b hap hbp hab
  last p hp q' hq' a b ha hb hab := by
    have hap := ha.resolve_right fun heq => hqueue (heq.2 ▸ hp)
    rcases hb with hb | ⟨rfl, -⟩
    · exact h.last p hp q' hq' a b hap hb hab
    · exact hlate a (h.item a p hap) hab
  above j p hat hwaits l hl := by
    rcases hat with hat | ⟨rfl, -⟩
    · exact h.above j p hat hwaits l hl
    · rcases h.mark_le _ l hl with hle | ⟨k, hk, hs, hle⟩
      · exact hle.trans_lt hstart
      · exact hle.trans_lt (hlate k hk hs)
  mark_le s l hl := (h.mark_le s l hl).imp_right fun ⟨i, hi, hs⟩ => ⟨i, Or.inl hi, hs⟩

theorem Valid.opened (hempty : ∀ i, ¬ w.At i q) :
    (w.opened q).Valid series time start where
  item := h.item
  waiting i hi := (h.waiting i hi).imp_right fun ⟨p, hat, hwaits⟩ =>
    ⟨p, hat, hwaits.imp_right Or.inl⟩
  ordered := h.ordered
  last p hp q' hq' := by
    rcases hq' with hq' | rfl
    · exact h.last p hp q' hq'
    · exact fun _ j _ hj => absurd hj (hempty j)
  above i p hat hwaits := by
    rcases hwaits with hp | hp | rfl
    · exact h.above i p hat (Or.inl hp)
    · exact h.above i p hat (Or.inr hp)
    · exact absurd hat (hempty i)
  mark_le := h.mark_le

theorem Valid.closed (hopen : w.Open q)
    (hothers : ∀ q', w.Open q' → q' ≠ q → w.Earlier series time q q') :
    (w.closed q).Valid series time start where
  item := h.item
  waiting i hi := by
    classical
    refine (h.waiting i hi).imp_right ?_
    rintro ⟨p, hat, hp | hp⟩
    · exact ⟨p, hat, Or.inl (mem_append_left _ hp)⟩
    · by_cases hpq : p = q
      · exact ⟨p, hat, Or.inl (mem_append_right _ (hpq ▸ mem_cons_self))⟩
      · exact ⟨p, hat, Or.inr ⟨hp, hpq⟩⟩
  ordered := by
    refine pairwise_append.2 ⟨h.ordered, pairwise_singleton _ _, fun p hp q' hq' => ?_⟩
    obtain rfl := mem_singleton.1 hq'
    exact h.last p hp q' hopen
  last p hp q' hq' := by
    rcases mem_append.1 hp with hp | hp
    · exact h.last p hp q' hq'.1
    · obtain rfl := mem_singleton.1 hp
      exact hothers q' hq'.1 hq'.2
  above i p hat hwaits := by
    rcases hwaits with hp | hp
    · rcases mem_append.1 hp with hp | hp
      · exact h.above i p hat (Or.inl hp)
      · obtain rfl := mem_singleton.1 hp
        exact h.above i p hat (Or.inr hopen)
    · exact h.above i p hat (Or.inr hp.1)
  mark_le := h.mark_le

theorem Valid.requeued {queue : List P}
    (hperm : queue.Perm w.queue) (hordered : queue.Pairwise (w.Earlier series time)) :
    (w.requeued queue).Valid series time start := by
  have hwaits : ∀ p, (w.requeued queue).Waits p ↔ w.Waits p := fun p =>
    or_congr_left hperm.mem_iff
  exact ⟨h.item, fun i hi => (h.waiting i hi).imp_right fun ⟨p, hat, hp⟩ =>
    ⟨p, hat, (hwaits p).2 hp⟩, hordered, fun p hp => h.last p (hperm.mem_iff.1 hp),
    fun i p hat hp => h.above i p hat ((hwaits p).1 hp), h.mark_le⟩

theorem Valid.moved {f : P → Option P} {queue : List P}
    (hqueue : queue.map some = w.queue.map f) (hopen : ∀ p, w.Open p → f p = some p)
    (hinj : ∀ i p q p', w.At i p → w.Waits q → f p = some p' → f q = some p' → p = q) :
    (w.moved f queue).Valid series time start := by
  have horigin : ∀ p' ∈ queue, ∃ p ∈ w.queue, f p = some p' := by
    intro p' hp'
    exact mem_map.1 (hqueue ▸ mem_map.2 ⟨p', hp', rfl⟩)
  -- Items meet at a place only if they were together before.
  have hearlier : ∀ {p q p' q'}, w.Waits p → w.Waits q → f p = some p' → f q = some q' →
      w.Earlier series time p q → (w.moved f queue).Earlier series time p' q' := by
    rintro p q p' q' hp hq hfp hfq hpq i j ⟨r, hi, hr⟩ ⟨r', hj, hr'⟩ hij
    obtain rfl := hinj i r p p' hi hp hr hfp
    obtain rfl := hinj j r' q q' hj hq hr' hfq
    exact hpq i j hi hj hij
  refine ⟨fun i p' hat => ?_, fun i hi => ?_, ?_, fun p' hp' q hq => ?_,
    fun i p' hat hwaits l hl => ?_, h.mark_le⟩
  · obtain ⟨p, hat, -⟩ := hat
    exact h.item i p hat
  · refine (h.waiting i hi).imp_right ?_
    rintro ⟨p, hat, hp | hp⟩
    · obtain ⟨p', hp', hf⟩ := mem_map.1 (hqueue ▸ mem_map.2 ⟨p, hp, rfl⟩)
      exact ⟨p', ⟨p, hat, hf.symm⟩, Or.inl hp'⟩
    · exact ⟨p, ⟨p, hat, hopen p hp⟩, Or.inr hp⟩
  · have hmapped : (w.queue.map f).Pairwise fun a b => ∀ p' q', a = some p' → b = some q' →
        (w.moved f queue).Earlier series time p' q' := by
      refine pairwise_map.2 (h.ordered.imp_of_mem fun {p q} hp hq hpq p' q' hfp hfq => ?_)
      exact hearlier (Or.inl hp) (Or.inl hq) hfp hfq hpq
    rw [← hqueue] at hmapped
    exact (pairwise_map.1 hmapped).imp fun hpq => hpq _ _ rfl rfl
  · obtain ⟨p, hp, hf⟩ := horigin p' hp'
    exact hearlier (Or.inl hp) (Or.inr hq) hf (hopen q hq) (h.last p hp q hq)
  · obtain ⟨p, hat, hf⟩ := hat
    rcases hwaits with hp' | hp'
    · obtain ⟨q, hq, hfq⟩ := horigin p' hp'
      obtain rfl := hinj i p q p' hat (Or.inl hq) hf hfq
      exact h.above i p hat (Or.inl hq) l hl
    · obtain rfl := hinj i p p' p' hat (Or.inr hp') hf (hopen p' hp')
      exact h.above i p hat (Or.inr hp') l hl

end

section Drained

variable (h : w.Valid series time start) {p : P} {rest : List P} (hqueue : w.queue = p :: rest)
  {Done : I → Prop} {mark : S → Option T}
  (hmark : ∀ s, mark s = w.mark s ∨ ∃ i, w.At i p ∧ series i = s ∧ mark s = some (time i))

include h hqueue hmark

theorem Valid.drained (hold : ∀ i, w.Done i → Done i) (hnew : ∀ i, w.At i p → Done i) :
    (w.drained rest Done mark).Valid series time start := by
  have hordered := hqueue ▸ h.ordered
  have hwaits : ∀ {q}, (w.drained rest Done mark).Waits q → w.Waits q := fun hq =>
    hq.imp_left fun hq => hqueue ▸ mem_cons_of_mem p hq
  have hfirst : ∀ {q}, (w.drained rest Done mark).Waits q → w.Earlier series time p q := by
    rintro q (hq | hq)
    · exact (pairwise_cons.1 hordered).1 q hq
    · exact h.last p (hqueue ▸ mem_cons_self) q hq
  refine ⟨h.item, fun i hi => ?_, (pairwise_cons.1 hordered).2,
    fun q hq => h.last q (hqueue ▸ mem_cons_of_mem p hq), fun i q hat hq l hl => ?_,
    fun s l hl => ?_⟩
  · rcases h.waiting i hi with hdone | ⟨q, hat, hq | hq⟩
    · exact Or.inl (hold i hdone)
    · rcases mem_cons.1 (hqueue ▸ hq) with rfl | hq
      · exact Or.inl (hnew i hat)
      · exact Or.inr ⟨q, hat, Or.inl hq⟩
    · exact Or.inr ⟨q, hat, Or.inr hq⟩
  · change mark (series i) = some l at hl
    rcases hmark (series i) with heq | ⟨j, hj, hs, heq⟩
    · exact h.above i q hat (hwaits hq) l (heq ▸ hl)
    · obtain rfl : time j = l := Option.some.inj (heq.symm.trans hl)
      exact hfirst hq j i hj hat hs
  · change mark s = some l at hl
    rcases hmark s with heq | ⟨j, hj, hs, heq⟩
    · exact h.mark_le s l (heq ▸ hl)
    · exact Or.inr ⟨j, h.item j p hj, hs, (Option.some.inj (hl.symm.trans heq)).le⟩

theorem Valid.mark_le_drained {s : S} {l l' : T} (hl : w.mark s = some l)
    (hl' : mark s = some l') : l ≤ l' := by
  rcases hmark s with heq | ⟨j, hj, hs, heq⟩
  · exact (Option.some.inj (hl.symm.trans (heq.symm.trans hl'))).le
  · obtain rfl : time j = l' := Option.some.inj (heq.symm.trans hl')
    exact (h.above j p hj (Or.inl (hqueue ▸ mem_cons_self)) l (hs ▸ hl)).le

end Drained

end Pipeline
