/-
Games of Sokoban: sequences of `Moteur.action` calls on a level that Terrain has read.

- `partie_saine`: on a level with one pusher, whatever the clicks on its cells until the game is over, no call throws, a
  refused call changes nothing, one cell contains the pusher and it is the one the engine has, the obstacles do not
  move, and the number of bags on the board less `nb_but` is constant;
- `loi_des_buts_iff`: the goals obey their law (a call leaves them as they are, or takes out the one a bag has just
  been pushed onto and decrements `nb_but`) along a game, so that `nb_but` counts them, exactly when no push is made
  from a goal, by the pusher or by the bag. A push copies the whole cell of the pusher and of the bag, so their goal
  layers travel with them.
Witness that the condition is needed: `pousseur_sur_but_duplique`, a pusher that starts on a goal leaves it behind and
takes a copy along.
-/
import Semestre6.Lib.Transition
import Semestre6.Sokoban.Moteur

namespace Semestre6.Sokoban

open Transition

namespace Moteur

/-! ## The start of a game -/

theorem repere_t (t : Terrain) (m : Moteur) (p : ℤ × ℤ) : (repere t m p).t = m.t := by
  unfold repere; split_ifs <;> rfl

theorem foldl_repere_t (t : Terrain) (m : Moteur) (l : List (ℤ × ℤ)) : (l.foldl (repere t) m).t = m.t := by
  induction l generalizing m with
  | nil => rfl
  | cons p l ih => rw [List.foldl_cons, ih, repere_t]

/-- a field that the constructor's loop sets at the cells of a test ends on one of them, if there are any -/
theorem foldl_repere {t : Terrain} (champ : Moteur → ℤ × ℤ) (test : ℤ × ℤ → Prop)
    (hset : ∀ m p, test p → champ (repere t m p) = p) (hkeep : ∀ m p, ¬test p → champ (repere t m p) = champ m)
    (l : List (ℤ × ℤ)) (m : Moteur) (h : test (champ m) ∨ ∃ p ∈ l, test p) : test (champ (l.foldl (repere t) m)) := by
  induction l generalizing m with
  | nil => simpa using h
  | cons q l ih =>
    rw [List.foldl_cons]
    apply ih
    by_cases hq : test q
    · left
      rwa [hset m q hq]
    · rw [hkeep m q hq]
      refine h.imp_right ?_
      intro h
      obtain ⟨p, hp, htest⟩ := h
      rcases List.mem_cons.1 hp with rfl | hp
      · exact absurd htest hq
      · exact ⟨p, hp, htest⟩

theorem mem_positions_of {t : Terrain} {k : Case} {c : ℤ × ℤ} (h : t.terrain c.1 c.2 = some k) : c ∈ t.positions :=
  Terrain.mem_positions.2 (Terrain.dans_iff.2 ⟨k, h⟩)

/-- `lignePousseur`, `colonnePousseur` is a cell of a pusher, if there are any -/
theorem nouveau_pousseur {t : Terrain} {c : ℤ × ℤ} (h : t.contientEn .pousseur c = true) :
    t.contientEn .pousseur ((nouveau t).lignePousseur, (nouveau t).colonnePousseur) = true := by
  apply foldl_repere (fun m => (m.lignePousseur, m.colonnePousseur)) fun p => t.contientEn .pousseur p = true
  · intro m p hp
    simp [repere, hp]
  · intro m p hp
    unfold repere
    rw [if_neg hp]
    split_ifs <;> rfl
  · obtain ⟨k, hk, -⟩ := Terrain.contientEn_iff.1 h
    exact .inr ⟨c, mem_positions_of hk, h⟩

theorem nouveau_t (t : Terrain) : (nouveau t).t = t := foldl_repere_t t _ _

theorem nouveau_place {t : Terrain} (h : (t.cellules .pousseur).card = 1) : (nouveau t).Place := by
  obtain ⟨q, hq⟩ := Finset.card_eq_one.1 h
  have hmem (p : ℤ × ℤ) : t.contientEn .pousseur p = true ↔ p = q := by
    rw [Terrain.contientEn_iff, ← Terrain.mem_cellules, hq, Finset.mem_singleton]
  have hpos := (hmem _).1 (nouveau_pousseur ((hmem q).2 rfl))
  rw [Place, nouveau_t, hq, ← hpos]

/-! ## Games until the last goal -/

/-- the calls made until `fini()` -/
def joue (m : Moteur) : List (ℤ × ℤ) → Except JException Moteur
  | [] => .ok m
  | p :: l =>
    if m.t.fini then .ok m
    else do
      let (m', _) ← m.action p.1 p.2
      joue m' l

/-- what a game keeps of the level `t` it started on -/
structure Garde (t : Terrain) (m : Moteur) : Prop where
  dans : ∀ i j, m.t.Dans i j ↔ t.Dans i j
  place : m.Place
  obstacles : m.t.cellules .obstacle = t.cellules .obstacle
  sacs : ((m.t.cellules .sac).card : ℤ) - m.t.nbBut = (t.cellules .sac).card - t.nbBut

theorem garde_nouveau {t : Terrain} (h : (t.cellules .pousseur).card = 1) : Garde t (nouveau t) :=
  ⟨fun _ _ => by rw [nouveau_t], nouveau_place h, by rw [nouveau_t], by rw [nouveau_t]⟩

theorem Marche.garde {t : Terrain} {m m' : Moteur} {i j : ℤ} (hM : Marche m m' i j) (h : Garde t m) : Garde t m' :=
  ⟨fun k l => (hM.dans k l).trans (h.dans k l), hM.place, hM.obstacles.trans h.obstacles, by
    rw [hM.sacs, hM.nbBut]; exact h.sacs⟩

/-- a bag pushed onto a goal leaves the board with one unit of `nb_but`, which is positive before the end -/
theorem Pousse.garde {t : Terrain} {m m' : Moteur} {i j : ℤ} {d : ℤ × ℤ} (hQ : Pousse m m' i j d)
    (ha : m.arrivee i j = some d) (hf : m.t.fini = false) (h : Garde t m) : Garde t m' := by
  obtain ⟨hs, hl, hne, -, -⟩ := arrivee_some ha
  obtain ⟨k, hk, hkl⟩ := estPossible_iff.1 hl
  have hd : d ∉ m.t.cellules .sac := by simp [Terrain.mem_cellules, hk, (Case.libre_exclut hkl).1]
  have hpos : 0 < m.t.nbBut := by simpa [Terrain.fini, Nat.pos_iff_ne_zero] using hf
  have hcard : 0 < (m.t.cellules .sac).card := Finset.card_pos.2 ⟨_, hs⟩
  refine ⟨fun k l => (hQ.dans k l).trans (h.dans k l), hQ.place, hQ.obstacles.trans h.obstacles, ?_⟩
  rw [hQ.sacs, hQ.nbBut, ← h.sacs]
  split_ifs with hb
  · rw [Finset.card_erase_of_mem hs]; omega
  · rw [Finset.card_insert_of_notMem (by simp [hd]), Finset.card_erase_of_mem hs]; omega

theorem garde_action {t : Terrain} {m : Moteur} (h : Garde t m) (hf : m.t.fini = false) {i j : ℤ} (hd : t.Dans i j) :
    ∃ m' b, m.action i j = .ok (m', b) ∧ Garde t m' := by
  obtain ⟨m', b, hact, ⟨-, rfl, -⟩ | ⟨-, hM, -⟩ | ⟨-, d, ha, hQ⟩⟩ := action_cases h.place ((h.dans i j).2 hd)
  · exact ⟨m', b, hact, h⟩
  · exact ⟨m', b, hact, hM.garde h⟩
  · exact ⟨m', b, hact, hQ.garde ha hf h⟩

theorem garde_joue {t : Terrain} {m : Moteur} (h : Garde t m) (coups : List (ℤ × ℤ))
    (hin : ∀ p ∈ coups, t.Dans p.1 p.2) : ∃ m', m.joue coups = .ok m' ∧ Garde t m' := by
  induction coups generalizing m with
  | nil => exact ⟨m, rfl, h⟩
  | cons p l ih =>
    cases hf : m.t.fini with
    | true => exact ⟨m, by simp [joue, hf], h⟩
    | false =>
      obtain ⟨m', b, hact, h'⟩ := garde_action h hf (hin p List.mem_cons_self)
      obtain ⟨m'', hj, h''⟩ := ih h' fun q hq => hin q (List.mem_cons_of_mem p hq)
      exact ⟨m'', by simp [joue, hf, hact, hj, bind, Except.bind], h''⟩

theorem refus_sans_effet {t : Terrain} {m m' : Moteur} (h : Garde t m) {i j : ℤ} (hd : t.Dans i j)
    (hact : m.action i j = .ok (m', false)) : m' = m := by
  obtain ⟨m'', b, hact', hc⟩ := action_cases h.place ((h.dans i j).2 hd)
  rw [hact] at hact'
  cases hact'
  rcases hc with ⟨-, h', -⟩ | ⟨hb, -⟩ | ⟨hb, -⟩
  · exact h'
  · cases hb
  · cases hb

/-- **A game is safe.** On every board with exactly one pusher, in particular every level read, and for every sequence
of clicks on its cells until `fini()`: no call throws; one cell contains the pusher, the one the engine has; the
obstacles stay; the bags on the board less `nb_but` are constant; and a call that returns false leaves the engine as it
was. -/
theorem partie_saine (t : Terrain) (h1 : (t.cellules .pousseur).card = 1) (coups : List (ℤ × ℤ))
    (hin : ∀ p ∈ coups, t.Dans p.1 p.2) :
    ∃ m, (nouveau t).joue coups = .ok m ∧
      m.t.cellules .pousseur = {(m.lignePousseur, m.colonnePousseur)} ∧
      m.t.cellules .obstacle = t.cellules .obstacle ∧
      ((m.t.cellules .sac).card : ℤ) - m.t.nbBut = (t.cellules .sac).card - t.nbBut ∧
      ∀ i j m', t.Dans i j → m.action i j = .ok (m', false) → m' = m := by
  obtain ⟨m, hj, h⟩ := garde_joue (garde_nouveau h1) coups hin
  exact ⟨m, hj, h.place, h.obstacles, h.sacs, fun i j m' hd hact => refus_sans_effet h hd hact⟩

/-- a pusher on a goal, a bag on a goal, a free cell and a goal -/
def couloir : Terrain :=
  { Terrain.deLignes 4 1 [[.pousseurSurBut, .sacSurBut, .libre, .but]] with nbBut := 3 }

theorem partie_saine_couloir : ∃ m, (nouveau couloir).joue [(0, 1), (0, 2)] = .ok m ∧
    m.t.cellules .pousseur = {(m.lignePousseur, m.colonnePousseur)} ∧
    m.t.cellules .obstacle = couloir.cellules .obstacle ∧
    ((m.t.cellules .sac).card : ℤ) - m.t.nbBut = (couloir.cellules .sac).card - couloir.nbBut ∧
    ∀ i j m', couloir.Dans i j → m.action i j = .ok (m', false) → m' = m :=
  partie_saine couloir (by decide) [(0, 1), (0, 2)] (by decide)

/-! ## The law of the goals -/

/-- the engine after a call; one that throws leaves it as it is, the exception comes before any assignment -/
def coup (m : Moteur) (p : ℤ × ℤ) : Moteur :=
  match m.action p.1 p.2 with
  | .ok r => r.1
  | .error _ => m

/-- the law one call should obey: the goals and `nb_but` stay, or the goal a bag has just been pushed onto goes and
`nb_but` is decremented -/
def LoiDesButs (m : Moteur) (p : ℤ × ℤ) : Prop :=
  ((m.coup p).t.cellules .but = m.t.cellules .but ∧ (m.coup p).t.nbBut = m.t.nbBut) ∨
    ∃ d, m.arrivee p.1 p.2 = some d ∧ d ∈ m.t.cellules .but ∧
      (m.coup p).t.cellules .but = (m.t.cellules .but).erase d ∧ (m.coup p).t.nbBut + 1 = m.t.nbBut

/-- no push from a goal: if the call pushes a bag, neither the pusher nor the bag stands on a goal -/
def HorsBut (m : Moteur) (p : ℤ × ℤ) : Prop :=
  m.arrivee p.1 p.2 ≠ none → (m.lignePousseur, m.colonnePousseur) ∉ m.t.cellules .but ∧ p ∉ m.t.cellules .but

/-- the pusher is where the engine has it and `nb_but` counts the goals -/
structure Compte (m : Moteur) : Prop where
  place : m.Place
  nbBut : m.t.nbBut = (m.t.cellules .but).card

theorem coup_cases {m : Moteur} (hP : m.Place) (p : ℤ × ℤ) :
    (m.coup p = m ∧ m.arrivee p.1 p.2 = none) ∨
    (Marche m (m.coup p) p.1 p.2 ∧ m.arrivee p.1 p.2 = none) ∨
    ∃ d, m.arrivee p.1 p.2 = some d ∧ Pousse m (m.coup p) p.1 p.2 d := by
  by_cases hd : m.t.Dans p.1 p.2
  · obtain ⟨m', b, hact, h⟩ := action_cases hP hd
    have hc : m.coup p = m' := by simp [coup, hact]
    rw [hc]
    rcases h with ⟨-, h, hn, -⟩ | ⟨-, h, hn, -⟩ | ⟨-, h⟩
    · exact Or.inl ⟨h, hn⟩
    · exact Or.inr (Or.inl ⟨h, hn⟩)
    · exact Or.inr (Or.inr h)
  · left
    refine ⟨by simp [coup, action_dehors hd], ?_⟩
    cases ha : m.arrivee p.1 p.2 with
    | none => rfl
    | some d =>
      obtain ⟨k, hk, -⟩ := Terrain.mem_cellules.1 (arrivee_some ha).1
      exact absurd (Terrain.dans_iff.2 ⟨k, hk⟩) hd

theorem compte_coup {m : Moteur} (h : Compte m) (p : ℤ × ℤ) (hl : LoiDesButs m p) : Compte (m.coup p) := by
  refine ⟨?_, ?_⟩
  · rcases coup_cases h.place p with ⟨hm, -⟩ | ⟨hM, -⟩ | ⟨d, -, hQ⟩
    · rw [hm]; exact h.place
    · exact hM.place
    · exact hQ.place
  · rcases hl with ⟨hb, hn⟩ | ⟨d, -, hd, hb, hn⟩
    · rw [hn, hb, h.nbBut]
    · rw [hb, Finset.card_erase_of_mem hd, ← h.nbBut]; omega

/-- one push obeys the law exactly when the goal layers of the pusher and of the bag are empty: a push leaves the goal
bits (pusher, pusher, bag) on the three cells -/
theorem Pousse.loi_iff {m m' : Moteur} {i j : ℤ} {d : ℤ × ℤ} (hQ : Pousse m m' i j d) (ha : m.arrivee i j = some d)
    (hn : m.t.nbBut = (m.t.cellules .but).card) :
    ((m'.t.cellules .but = m.t.cellules .but ∧ m'.t.nbBut = m.t.nbBut) ∨
      (d ∈ m.t.cellules .but ∧ m'.t.cellules .but = (m.t.cellules .but).erase d ∧ m'.t.nbBut + 1 = m.t.nbBut)) ↔
    (m.lignePousseur, m.colonnePousseur) ∉ m.t.cellules .but ∧ (i, j) ∉ m.t.cellules .but := by
  obtain ⟨-, -, hdb, hpb, hdp⟩ := arrivee_some ha
  have hd' : d ∈ m'.t.cellules .but ↔ (i, j) ∈ m.t.cellules .but := by rw [hQ.buts, if_pos rfl]
  have hb' : (i, j) ∈ m'.t.cellules .but ↔ (m.lignePousseur, m.colonnePousseur) ∈ m.t.cellules .but := by
    rw [hQ.buts, if_neg hdb.symm, if_pos rfl]
  constructor
  · rintro (⟨hb, hnb⟩ | ⟨hd, hb, -⟩)
    · have hd : d ∉ m.t.cellules .but := by
        intro hd
        have hpos : 0 < (m.t.cellules .but).card := Finset.card_pos.2 ⟨d, hd⟩
        rw [hQ.nbBut, if_pos hd] at hnb
        omega
      rw [hb] at hd' hb'
      have hs : (i, j) ∉ m.t.cellules .but := fun h => hd (hd'.2 h)
      exact ⟨fun h => hs (hb'.2 h), hs⟩
    · have hs : (i, j) ∉ m.t.cellules .but := by rw [← hd', hb]; simp
      refine ⟨fun h => hs ?_, hs⟩
      have h' := hb'.2 h
      rw [hb] at h'
      exact Finset.mem_of_mem_erase h'
  · rintro ⟨hp, hs⟩
    have hbuts : m'.t.cellules .but = (m.t.cellules .but).erase d := by
      ext q
      rw [hQ.buts, Finset.mem_erase]
      split_ifs with h1 h2
      · simp [h1, hs]
      · simp [h2, hp, hs]
      · simp [h1]
    by_cases hd : d ∈ m.t.cellules .but
    · have hpos : 0 < (m.t.cellules .but).card := Finset.card_pos.2 ⟨d, hd⟩
      refine Or.inr ⟨hd, hbuts, ?_⟩
      rw [hQ.nbBut, if_pos hd]
      omega
    · refine Or.inl ⟨by rw [hbuts, Finset.erase_eq_of_notMem hd], ?_⟩
      rw [hQ.nbBut, if_neg hd]

theorem loi_iff_horsBut {m : Moteur} (h : Compte m) (p : ℤ × ℤ) : LoiDesButs m p ↔ HorsBut m p := by
  rcases coup_cases h.place p with ⟨hm, ha⟩ | ⟨hM, ha⟩ | ⟨d, ha, hQ⟩
  · exact ⟨fun _ hne => absurd ha hne, fun _ => Or.inl (by rw [hm]; exact ⟨rfl, rfl⟩)⟩
  · exact ⟨fun _ hne => absurd ha hne, fun _ => Or.inl ⟨hM.buts, hM.nbBut⟩⟩
  · have hiff := hQ.loi_iff ha h.nbBut
    simp only [LoiDesButs, HorsBut, ha, ne_eq, reduceCtorEq, not_false_eq_true, forall_const, Option.some.injEq,
      exists_eq_left']
    exact hiff

/-- **The law of the goals.** On every level read with one pusher and along every sequence of calls: every call obeys
the law, and `nb_but` is the number of goals left in the state reached (so `fini()` says that none is left), if and
only if no call pushes a bag while the pusher or the bag stands on a goal. -/
theorem loi_des_buts_iff (texte : List Char) (t : Terrain) (ht : Terrain.lire texte = .ok t)
    (h1 : (t.cellules .pousseur).card = 1) (coups : List (ℤ × ℤ)) :
    (Always coup LoiDesButs (nouveau t) coups ∧
      (run coup (nouveau t) coups).t.nbBut = ((run coup (nouveau t) coups).t.cellules .but).card ∧
      ((run coup (nouveau t) coups).t.fini = true ↔ (run coup (nouveau t) coups).t.cellules .but = ∅)) ↔
    Always coup HorsBut (nouveau t) coups := by
  have h0 : Compte (nouveau t) := ⟨nouveau_place h1, by rw [nouveau_t, Terrain.lire_nbBut ht]⟩
  have hiff : Always coup LoiDesButs (nouveau t) coups ↔ Always coup HorsBut (nouveau t) coups :=
    always_congr (fun m p h => compte_coup h p) (fun m p h => loi_iff_horsBut h p) _ _ h0
  refine ⟨fun h => hiff.1 h.1, ?_⟩
  intro h
  have hl := hiff.2 h
  have hc : Compte (run coup (nouveau t) coups) :=
    @run_inv_of_always _ _ coup LoiDesButs Compte (fun m p h => compte_coup h p) _ _ h0 hl
  refine ⟨hl, hc.nbBut, ?_⟩
  rw [← Finset.card_eq_zero, ← hc.nbBut, Terrain.fini, beq_iff_eq]

/-- a level with a pusher on a goal, a bag and two free cells -/
def impasse : Terrain := { Terrain.deLignes 4 1 [[.pousseurSurBut, .sac, .libre, .libre]] with nbBut := 1 }

theorem lire_impasse : Terrain.lire "4 1\n0&..".toList = .ok impasse := rfl

theorem loi_des_buts_impasse :
    (Always coup LoiDesButs (nouveau impasse) [(0, 1), (0, 2)] ∧
      (run coup (nouveau impasse) [(0, 1), (0, 2)]).t.nbBut =
        ((run coup (nouveau impasse) [(0, 1), (0, 2)]).t.cellules .but).card ∧
      ((run coup (nouveau impasse) [(0, 1), (0, 2)]).t.fini = true ↔
        (run coup (nouveau impasse) [(0, 1), (0, 2)]).t.cellules .but = ∅)) ↔
    Always coup HorsBut (nouveau impasse) [(0, 1), (0, 2)] :=
  loi_des_buts_iff _ impasse lire_impasse (by decide) _

/-- **A pusher on a goal duplicates it.** On this level the first push leaves a goal where the pusher stood and takes a
copy of it along: two cells contain a goal, `nb_but` is still 1, and the call obeys neither half of the law. -/
theorem pousseur_sur_but_duplique :
    Terrain.lire "4 1\n0&..".toList = .ok impasse ∧ (impasse.cellules .pousseur).card = 1 ∧
      ¬Always coup LoiDesButs (nouveau impasse) [(0, 1)] ∧
      ((nouveau impasse).coup (0, 1)).t.nbBut = 1 ∧
      ((nouveau impasse).coup (0, 1)).t.cellules .but = {(0, 0), (0, 1)} := by
  have h0 : Compte (nouveau impasse) := ⟨nouveau_place (by decide), by decide⟩
  refine ⟨lire_impasse, by decide, ?_, by decide, by decide⟩
  intro h
  exact absurd ((loi_iff_horsBut h0 _).1 h.1) (by unfold HorsBut; decide)

end Moteur

end Semestre6.Sokoban
