import ProofOfCustody.Params.Pratt

/-!
# The primes of the source

The field primes that `poc_main2fork` chooses by their bit length and the order of the BLS12-381
groups.
-/

namespace ProofOfCustody.Params

def prime128 : Nat :=
  170141183460469231731687303715885907969

def prime256 : Nat :=
  57896044618658097711785492504343953926634992332820282019728792003956566065153

/-- The field prime for 381 bits, which is the base field of BLS12-381. -/
def prime381 : Nat :=
  4002409555221667393417789825735904156556882819939007885332058136124031650490837864442687629129015664037894272559787

/-- The order of the BLS12-381 groups. -/
def groupOrder : Nat :=
  52435875175126190479447740508185965837690552500527637822603658699938581184513

def certificates : List Certificate :=
  [⟨3, 2, [(2, 1)]⟩, ⟨5, 2, [(2, 2)]⟩, ⟨7, 3, [(2, 1), (3, 1)]⟩, ⟨11, 2, [(2, 1), (5, 1)]⟩,
    ⟨13, 2, [(2, 2), (3, 1)]⟩, ⟨17, 3, [(2, 4)]⟩, ⟨19, 2, [(2, 1), (3, 2)]⟩,
    ⟨23, 5, [(2, 1), (11, 1)]⟩, ⟨29, 2, [(2, 2), (7, 1)]⟩, ⟨31, 3, [(2, 1), (3, 1), (5, 1)]⟩,
    ⟨37, 2, [(2, 2), (3, 2)]⟩, ⟨41, 6, [(2, 3), (5, 1)]⟩, ⟨43, 3, [(2, 1), (3, 1), (7, 1)]⟩,
    ⟨47, 5, [(2, 1), (23, 1)]⟩, ⟨53, 2, [(2, 2), (13, 1)]⟩, ⟨59, 2, [(2, 1), (29, 1)]⟩,
    ⟨67, 2, [(2, 1), (3, 1), (11, 1)]⟩, ⟨73, 5, [(2, 3), (3, 2)]⟩,
    ⟨79, 3, [(2, 1), (3, 1), (13, 1)]⟩, ⟨83, 2, [(2, 1), (41, 1)]⟩, ⟨89, 3, [(2, 3), (11, 1)]⟩,
    ⟨97, 5, [(2, 5), (3, 1)]⟩, ⟨113, 3, [(2, 4), (7, 1)]⟩, ⟨127, 3, [(2, 1), (3, 2), (7, 1)]⟩,
    ⟨137, 3, [(2, 3), (17, 1)]⟩, ⟨151, 6, [(2, 1), (3, 1), (5, 2)]⟩, ⟨167, 5, [(2, 1), (83, 1)]⟩,
    ⟨173, 2, [(2, 2), (43, 1)]⟩, ⟨179, 2, [(2, 1), (89, 1)]⟩, ⟨181, 2, [(2, 2), (3, 2), (5, 1)]⟩,
    ⟨191, 19, [(2, 1), (5, 1), (19, 1)]⟩, ⟨233, 3, [(2, 3), (29, 1)]⟩, ⟨269, 2, [(2, 2), (67, 1)]⟩,
    ⟨281, 3, [(2, 3), (5, 1), (7, 1)]⟩, ⟨337, 10, [(2, 4), (3, 1), (7, 1)]⟩,
    ⟨359, 7, [(2, 1), (179, 1)]⟩, ⟨379, 2, [(2, 1), (3, 3), (7, 1)]⟩,
    ⟨409, 21, [(2, 3), (3, 1), (17, 1)]⟩, ⟨449, 3, [(2, 6), (7, 1)]⟩, ⟨467, 2, [(2, 1), (233, 1)]⟩,
    ⟨523, 2, [(2, 1), (3, 2), (29, 1)]⟩, ⟨593, 3, [(2, 4), (37, 1)]⟩, ⟨677, 2, [(2, 2), (13, 2)]⟩,
    ⟨709, 2, [(2, 2), (3, 1), (59, 1)]⟩, ⟨739, 3, [(2, 1), (3, 2), (41, 1)]⟩,
    ⟨829, 2, [(2, 2), (3, 2), (23, 1)]⟩, ⟨881, 3, [(2, 4), (5, 1), (11, 1)]⟩,
    ⟨929, 3, [(2, 5), (29, 1)]⟩, ⟨941, 2, [(2, 2), (5, 1), (47, 1)]⟩,
    ⟨947, 2, [(2, 1), (11, 1), (43, 1)]⟩, ⟨1087, 3, [(2, 1), (3, 1), (181, 1)]⟩,
    ⟨1151, 17, [(2, 1), (5, 2), (23, 1)]⟩, ⟨1327, 3, [(2, 1), (3, 1), (13, 1), (17, 1)]⟩,
    ⟨1453, 2, [(2, 2), (3, 1), (11, 2)]⟩, ⟨1607, 5, [(2, 1), (11, 1), (73, 1)]⟩,
    ⟨1999, 3, [(2, 1), (3, 3), (37, 1)]⟩, ⟨2339, 2, [(2, 1), (7, 1), (167, 1)]⟩,
    ⟨2741, 2, [(2, 2), (5, 1), (137, 1)]⟩, ⟨2837, 2, [(2, 2), (709, 1)]⟩,
    ⟨2957, 2, [(2, 2), (739, 1)]⟩, ⟨3373, 5, [(2, 2), (3, 1), (281, 1)]⟩,
    ⟨4349, 2, [(2, 2), (1087, 1)]⟩, ⟨4561, 11, [(2, 4), (3, 1), (5, 1), (19, 1)]⟩,
    ⟨4679, 11, [(2, 1), (2339, 1)]⟩, ⟨6067, 2, [(2, 1), (3, 2), (337, 1)]⟩,
    ⟨7577, 3, [(2, 3), (947, 1)]⟩, ⟨8101, 6, [(2, 2), (3, 4), (5, 2)]⟩,
    ⟨10177, 7, [(2, 6), (3, 1), (53, 1)]⟩, ⟨11149, 10, [(2, 2), (3, 1), (929, 1)]⟩,
    ⟨11621, 2, [(2, 2), (5, 1), (7, 1), (83, 1)]⟩, ⟨16447, 3, [(2, 1), (3, 1), (2741, 1)]⟩,
    ⟨18329, 3, [(2, 3), (29, 1), (79, 1)]⟩, ⟨20921, 3, [(2, 3), (5, 1), (523, 1)]⟩,
    ⟨27367, 3, [(2, 1), (3, 1), (4561, 1)]⟩, ⟨43591, 11, [(2, 1), (3, 1), (5, 1), (1453, 1)]⟩,
    ⟨47737, 5, [(2, 3), (3, 3), (13, 1), (17, 1)]⟩,
    ⟨49787, 2, [(2, 1), (11, 1), (31, 1), (73, 1)]⟩,
    ⟨79087, 3, [(2, 1), (3, 1), (7, 2), (269, 1)]⟩, ⟨106453, 6, [(2, 2), (3, 2), (2957, 1)]⟩,
    ⟨110573, 3, [(2, 2), (7, 1), (11, 1), (359, 1)]⟩, ⟨125527, 5, [(2, 1), (3, 1), (20921, 1)]⟩,
    ⟨189061, 10, [(2, 2), (3, 1), (5, 1), (23, 1), (137, 1)]⟩,
    ⟨421987, 2, [(2, 1), (3, 1), (53, 1), (1327, 1)]⟩, ⟨567401, 11, [(2, 3), (5, 2), (2837, 1)]⟩,
    ⟨582767, 5, [(2, 1), (67, 1), (4349, 1)]⟩, ⟨609743, 5, [(2, 1), (7, 1), (97, 1), (449, 1)]⟩,
    ⟨755057, 3, [(2, 4), (41, 1), (1151, 1)]⟩, ⟨859267, 2, [(2, 1), (3, 2), (47737, 1)]⟩,
    ⟨906349, 2, [(2, 2), (3, 1), (47, 1), (1607, 1)]⟩, ⟨1382477, 2, [(2, 2), (31, 1), (11149, 1)]⟩,
    ⟨1686913, 10, [(2, 7), (3, 1), (23, 1), (191, 1)]⟩,
    ⟨2508409, 11, [(2, 3), (3, 4), (7, 2), (79, 1)]⟩,
    ⟨2529403, 2, [(2, 1), (3, 1), (23, 1), (18329, 1)]⟩,
    ⟨2653753, 5, [(2, 3), (3, 1), (110573, 1)]⟩,
    ⟨3207121, 13, [(2, 4), (3, 1), (5, 1), (7, 1), (23, 1), (83, 1)]⟩,
    ⟨5777111, 7, [(2, 1), (5, 1), (17, 2), (1999, 1)]⟩,
    ⟨8294863, 3, [(2, 1), (3, 1), (1382477, 1)]⟩,
    ⟨8515373, 2, [(2, 2), (41, 1), (137, 1), (379, 1)]⟩,
    ⟨12165401, 3, [(2, 3), (5, 2), (13, 1), (4679, 1)]⟩,
    ⟨51376543, 3, [(2, 1), (3, 1), (7, 1), (151, 1), (8101, 1)]⟩,
    ⟨52437899, 2, [(2, 1), (43, 1), (609743, 1)]⟩, ⟨63690073, 7, [(2, 3), (3, 1), (2653753, 1)]⟩,
    ⟨254760293, 2, [(2, 2), (63690073, 1)]⟩,
    ⟨475709467, 2, [(2, 1), (3, 1), (47, 1), (1686913, 1)]⟩,
    ⟨927093389, 3, [(2, 2), (13, 1), (409, 1), (43591, 1)]⟩,
    ⟨1426716437, 2, [(2, 2), (43, 1), (8294863, 1)]⟩,
    ⟨9270035563, 2, [(2, 1), (3, 1), (127, 1), (12165401, 1)]⟩,
    ⟨13090036741, 10, [(2, 2), (3, 1), (5, 1), (11, 1), (47, 1), (421987, 1)]⟩,
    ⟨15176372063, 5, [(2, 1), (173, 1), (881, 1), (49787, 1)]⟩,
    ⟨30352744127, 5, [(2, 1), (15176372063, 1)]⟩,
    ⟨43670061551, 7, [(2, 1), (5, 2), (17, 1), (51376543, 1)]⟩,
    ⟨92600172109, 2, [(2, 2), (3, 3), (89, 1), (829, 1), (11621, 1)]⟩,
    ⟨315181209143, 5, [(2, 1), (17, 1), (9270035563, 1)]⟩,
    ⟨674436562519, 3, [(2, 1), (3, 1), (677, 1), (6067, 1), (27367, 1)]⟩,
    ⟨4412536928003, 2, [(2, 1), (7, 1), (315181209143, 1)]⟩,
    ⟨8825073856007, 5, [(2, 1), (4412536928003, 1)]⟩,
    ⟨9272813673901, 2, [(2, 2), (3, 1), (5, 2), (7, 1), (7577, 1), (582767, 1)]⟩,
    ⟨9659549608519, 3, [(2, 1), (3, 1), (189061, 1), (8515373, 1)]⟩,
    ⟨64881703735777, 5, [(2, 5), (3, 7), (927093389, 1)]⟩,
    ⟨99628509159847, 3, [(2, 1), (3, 4), (106453, 1), (5777111, 1)]⟩,
    ⟨597771054959083, 5, [(2, 1), (3, 1), (99628509159847, 1)]⟩,
    ⟨1928745244171409, 3, [(2, 4), (13, 1), (9272813673901, 1)]⟩,
    ⟨7259797099061183477, 2, [(2, 2), (941, 1), (1928745244171409, 1)]⟩,
    ⟨2584487767265781317813, 2, [(2, 2), (89, 1), (7259797099061183477, 1)]⟩,
    ⟨3819663927398918131021, 6, [(2, 2), (3, 2), (5, 1), (19, 1), (113, 1), (755057, 1),
      (13090036741, 1)]⟩,
    ⟨92691255082156974996979, 3, [(2, 1), (3, 1), (31, 1), (467, 1), (16447, 1),
      (64881703735777, 1)]⟩,
    ⟨1125266252156850182658904441386709967, 5, [(2, 1), (3373, 1), (43670061551, 1),
      (3819663927398918131021, 1)]⟩,
    ⟨prime128, 3, [(2, 15), (79087, 1), (3207121, 1), (30352744127, 1), (674436562519, 1)]⟩,
    ⟨44789593057166740199264799659368353190497971, 2, [(2, 1), (5, 1), (567401, 1),
      (92600172109, 1), (8825073856007, 1), (9659549608519, 1)]⟩,
    ⟨15778400344354997994418419698270088123916926905054652752758194827714659, 2, [(2, 1), (3, 1),
      (53, 1), (475709467, 1), (92691255082156974996979, 1),
      (1125266252156850182658904441386709967, 1)]⟩,
    ⟨groupOrder, 7, [(2, 32), (3, 1), (11, 1), (19, 1), (10177, 1), (125527, 1), (859267, 1),
      (906349, 2), (2508409, 1), (2529403, 1), (52437899, 1), (254760293, 2)]⟩,
    ⟨prime256, 5, [(2, 16), (3, 1), (13, 1), (593, 1), (1426716437, 1), (597771054959083, 1),
      (44789593057166740199264799659368353190497971, 1)]⟩,
    ⟨prime381, 2, [(2, 1), (3, 2), (11, 1), (23, 1), (47, 1), (10177, 1), (859267, 1),
      (52437899, 1), (2584487767265781317813, 1),
      (15778400344354997994418419698270088123916926905054652752758194827714659, 1)]⟩]

theorem certified : ∀ q ∈ certificates.map Certificate.prime, q.Prime :=
  List.forall_mem_map.2
    (Certificate.prime_of_validAll (List.forall_mem_singleton.2 Nat.prime_two) (by decide +kernel))

instance : Fact prime128.Prime :=
  ⟨certified _ (by decide +kernel)⟩

instance : Fact prime256.Prime :=
  ⟨certified _ (by decide +kernel)⟩

instance : Fact prime381.Prime :=
  ⟨certified _ (by decide +kernel)⟩

instance : Fact groupOrder.Prime :=
  ⟨certified _ (by decide +kernel)⟩

end ProofOfCustody.Params
