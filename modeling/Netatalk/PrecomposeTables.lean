import Netatalk.Composition

/-! # The composition tables

The tables of `precompose.h` (`libatalk/unicode/precompose.h`), and that they belong together
(`tables_good`): they are sorted, composing and decomposing have the same rows, and no letter is
made of itself.  The tables for decomposing are those for composing in the order of what is sought.

A row is written as one number: the replacement, the base and the combining character, in four
digits each, or in eight digits where they are surrogate pairs. -/

namespace Netatalk.Unicode

open List

/-! ### Rearranging a list

Two lists have the same members if one is the other one sorted.  `arrange` sorts by merging, with
recursions that evaluate. -/

/-- `x` and what `rest` makes of a list, as far as it is not below `x`. -/
def mergeInto (x : ℕ) (rest : List ℕ → List ℕ) : List ℕ → List ℕ
  | [] => x :: rest []
  | y :: ys => if x ≤ y then x :: rest (y :: ys) else y :: mergeInto x rest ys

def merge : List ℕ → List ℕ → List ℕ
  | [] => id
  | x :: xs => mergeInto x (merge xs)

def mergePairs : List (List ℕ) → List (List ℕ)
  | a :: b :: rest => merge a b :: mergePairs rest
  | [a] => [a]
  | [] => []

/-- The list after `n` rounds of merging, which are enough for `2 ^ n` numbers. -/
def arrange (n : ℕ) (xs : List ℕ) : List ℕ := (mergePairs^[n] (xs.map fun x => [x])).flatten

theorem mergeInto_perm {x : ℕ} {xs : List ℕ} {rest : List ℕ → List ℕ}
    (hrest : ∀ ys, (rest ys).Perm (xs ++ ys)) (ys : List ℕ) :
    (mergeInto x rest ys).Perm (x :: xs ++ ys) := by
  induction ys with
  | nil => exact (hrest []).cons x
  | cons y ys ih =>
    rw [mergeInto]
    split_ifs with h
    · exact (hrest (y :: ys)).cons x
    · exact (ih.cons y).trans perm_middle.symm

theorem merge_perm (xs ys : List ℕ) : (merge xs ys).Perm (xs ++ ys) := by
  induction xs generalizing ys with
  | nil => exact .refl ys
  | cons x xs ih => exact mergeInto_perm ih ys

theorem mergePairs_perm (ls : List (List ℕ)) : (mergePairs ls).flatten.Perm ls.flatten := by
  fun_induction mergePairs ls with
  | case1 a b rest ih =>
    rw [flatten_cons, flatten_cons, flatten_cons, ← append_assoc]
    exact (merge_perm a b).append ih
  | case2 | case3 => exact .refl _

theorem arrange_perm (n : ℕ) (xs : List ℕ) : (arrange n xs).Perm xs := by
  rw [arrange]
  generalize hls : (xs.map fun x => [x]) = ls
  have hxs : ls.flatten = xs := by
    rw [← hls, ← flatMap_def, flatMap_singleton']
  rw [← hxs]
  clear hls hxs
  induction n generalizing ls with
  | zero => exact .refl _
  | succ n ih => exact (ih (mergePairs ls)).trans (mergePairs_perm ls)

/-! ### The rows -/

def row (n : ℕ) : Row := ⟨n / 2 ^ 32, n / 2 ^ 16 % 2 ^ 16, n % 2 ^ 16⟩

def rowSp (n : ℕ) : Row := ⟨n / 2 ^ 64, n / 2 ^ 32 % 2 ^ 32, n % 2 ^ 32⟩

def precompositions : List ℕ := [
  0x00C000410300, 0x00C100410301, 0x00C200410302, 0x00C300410303, 0x010000410304, 0x010200410306,
  0x022600410307, 0x00C400410308, 0x1EA200410309, 0x00C50041030A, 0x01CD0041030C, 0x02000041030F,
  0x020200410311, 0x1EA000410323, 0x1E0000410325, 0x010400410328, 0x1E0200420307, 0x1E0400420323,
  0x1E0600420331, 0x010600430301, 0x010800430302, 0x010A00430307, 0x010C0043030C, 0x00C700430327,
  0x1E0A00440307, 0x010E0044030C, 0x1E0C00440323, 0x1E1000440327, 0x1E120044032D, 0x1E0E00440331,
  0x00C800450300, 0x00C900450301, 0x00CA00450302, 0x1EBC00450303, 0x011200450304, 0x011400450306,
  0x011600450307, 0x00CB00450308, 0x1EBA00450309, 0x011A0045030C, 0x02040045030F, 0x020600450311,
  0x1EB800450323, 0x022800450327, 0x011800450328, 0x1E180045032D, 0x1E1A00450330, 0x1E1E00460307,
  0x01F400470301, 0x011C00470302, 0x1E2000470304, 0x011E00470306, 0x012000470307, 0x01E60047030C,
  0x012200470327, 0x012400480302, 0x1E2200480307, 0x1E2600480308, 0x021E0048030C, 0x1E2400480323,
  0x1E2800480327, 0x1E2A0048032E, 0x00CC00490300, 0x00CD00490301, 0x00CE00490302, 0x012800490303,
  0x012A00490304, 0x012C00490306, 0x013000490307, 0x00CF00490308, 0x1EC800490309, 0x01CF0049030C,
  0x02080049030F, 0x020A00490311, 0x1ECA00490323, 0x012E00490328, 0x1E2C00490330, 0x0134004A0302,
  0x1E30004B0301, 0x01E8004B030C, 0x1E32004B0323, 0x0136004B0327, 0x1E34004B0331, 0x0139004C0301,
  0x013D004C030C, 0x1E36004C0323, 0x013B004C0327, 0x1E3C004C032D, 0x1E3A004C0331, 0x1E3E004D0301,
  0x1E40004D0307, 0x1E42004D0323, 0x01F8004E0300, 0x0143004E0301, 0x00D1004E0303, 0x1E44004E0307,
  0x0147004E030C, 0x1E46004E0323, 0x0145004E0327, 0x1E4A004E032D, 0x1E48004E0331, 0x00D2004F0300,
  0x00D3004F0301, 0x00D4004F0302, 0x00D5004F0303, 0x014C004F0304, 0x014E004F0306, 0x022E004F0307,
  0x00D6004F0308, 0x1ECE004F0309, 0x0150004F030B, 0x01D1004F030C, 0x020C004F030F, 0x020E004F0311,
  0x01A0004F031B, 0x1ECC004F0323, 0x01EA004F0328, 0x1E5400500301, 0x1E5600500307, 0x015400520301,
  0x1E5800520307, 0x01580052030C, 0x02100052030F, 0x021200520311, 0x1E5A00520323, 0x015600520327,
  0x1E5E00520331, 0x015A00530301, 0x015C00530302, 0x1E6000530307, 0x01600053030C, 0x1E6200530323,
  0x021800530326, 0x015E00530327, 0x1E6A00540307, 0x01640054030C, 0x1E6C00540323, 0x021A00540326,
  0x016200540327, 0x1E700054032D, 0x1E6E00540331, 0x00D900550300, 0x00DA00550301, 0x00DB00550302,
  0x016800550303, 0x016A00550304, 0x016C00550306, 0x00DC00550308, 0x1EE600550309, 0x016E0055030A,
  0x01700055030B, 0x01D30055030C, 0x02140055030F, 0x021600550311, 0x01AF0055031B, 0x1EE400550323,
  0x1E7200550324, 0x017200550328, 0x1E760055032D, 0x1E7400550330, 0x1E7C00560303, 0x1E7E00560323,
  0x1E8000570300, 0x1E8200570301, 0x017400570302, 0x1E8600570307, 0x1E8400570308, 0x1E8800570323,
  0x1E8A00580307, 0x1E8C00580308, 0x1EF200590300, 0x00DD00590301, 0x017600590302, 0x1EF800590303,
  0x023200590304, 0x1E8E00590307, 0x017800590308, 0x1EF600590309, 0x1EF400590323, 0x0179005A0301,
  0x1E90005A0302, 0x017B005A0307, 0x017D005A030C, 0x1E92005A0323, 0x1E94005A0331, 0x00E000610300,
  0x00E100610301, 0x00E200610302, 0x00E300610303, 0x010100610304, 0x010300610306, 0x022700610307,
  0x00E400610308, 0x1EA300610309, 0x00E50061030A, 0x01CE0061030C, 0x02010061030F, 0x020300610311,
  0x1EA100610323, 0x1E0100610325, 0x010500610328, 0x1E0300620307, 0x1E0500620323, 0x1E0700620331,
  0x010700630301, 0x010900630302, 0x010B00630307, 0x010D0063030C, 0x00E700630327, 0x1E0B00640307,
  0x010F0064030C, 0x1E0D00640323, 0x1E1100640327, 0x1E130064032D, 0x1E0F00640331, 0x00E800650300,
  0x00E900650301, 0x00EA00650302, 0x1EBD00650303, 0x011300650304, 0x011500650306, 0x011700650307,
  0x00EB00650308, 0x1EBB00650309, 0x011B0065030C, 0x02050065030F, 0x020700650311, 0x1EB900650323,
  0x022900650327, 0x011900650328, 0x1E190065032D, 0x1E1B00650330, 0x1E1F00660307, 0x01F500670301,
  0x011D00670302, 0x1E2100670304, 0x011F00670306, 0x012100670307, 0x01E70067030C, 0x012300670327,
  0x012500680302, 0x1E2300680307, 0x1E2700680308, 0x021F0068030C, 0x1E2500680323, 0x1E2900680327,
  0x1E2B0068032E, 0x1E9600680331, 0x00EC00690300, 0x00ED00690301, 0x00EE00690302, 0x012900690303,
  0x012B00690304, 0x012D00690306, 0x00EF00690308, 0x1EC900690309, 0x01D00069030C, 0x02090069030F,
  0x020B00690311, 0x1ECB00690323, 0x012F00690328, 0x1E2D00690330, 0x0135006A0302, 0x01F0006A030C,
  0x1E31006B0301, 0x01E9006B030C, 0x1E33006B0323, 0x0137006B0327, 0x1E35006B0331, 0x013A006C0301,
  0x013E006C030C, 0x1E37006C0323, 0x013C006C0327, 0x1E3D006C032D, 0x1E3B006C0331, 0x1E3F006D0301,
  0x1E41006D0307, 0x1E43006D0323, 0x01F9006E0300, 0x0144006E0301, 0x00F1006E0303, 0x1E45006E0307,
  0x0148006E030C, 0x1E47006E0323, 0x0146006E0327, 0x1E4B006E032D, 0x1E49006E0331, 0x00F2006F0300,
  0x00F3006F0301, 0x00F4006F0302, 0x00F5006F0303, 0x014D006F0304, 0x014F006F0306, 0x022F006F0307,
  0x00F6006F0308, 0x1ECF006F0309, 0x0151006F030B, 0x01D2006F030C, 0x020D006F030F, 0x020F006F0311,
  0x01A1006F031B, 0x1ECD006F0323, 0x01EB006F0328, 0x1E5500700301, 0x1E5700700307, 0x015500720301,
  0x1E5900720307, 0x01590072030C, 0x02110072030F, 0x021300720311, 0x1E5B00720323, 0x015700720327,
  0x1E5F00720331, 0x015B00730301, 0x015D00730302, 0x1E6100730307, 0x01610073030C, 0x1E6300730323,
  0x021900730326, 0x015F00730327, 0x1E6B00740307, 0x1E9700740308, 0x01650074030C, 0x1E6D00740323,
  0x021B00740326, 0x016300740327, 0x1E710074032D, 0x1E6F00740331, 0x00F900750300, 0x00FA00750301,
  0x00FB00750302, 0x016900750303, 0x016B00750304, 0x016D00750306, 0x00FC00750308, 0x1EE700750309,
  0x016F0075030A, 0x01710075030B, 0x01D40075030C, 0x02150075030F, 0x021700750311, 0x01B00075031B,
  0x1EE500750323, 0x1E7300750324, 0x017300750328, 0x1E770075032D, 0x1E7500750330, 0x1E7D00760303,
  0x1E7F00760323, 0x1E8100770300, 0x1E8300770301, 0x017500770302, 0x1E8700770307, 0x1E8500770308,
  0x1E980077030A, 0x1E8900770323, 0x1E8B00780307, 0x1E8D00780308, 0x1EF300790300, 0x00FD00790301,
  0x017700790302, 0x1EF900790303, 0x023300790304, 0x1E8F00790307, 0x00FF00790308, 0x1EF700790309,
  0x1E990079030A, 0x1EF500790323, 0x017A007A0301, 0x1E91007A0302, 0x017C007A0307, 0x017E007A030C,
  0x1E93007A0323, 0x1E95007A0331, 0x1FED00A80300, 0x038500A80301, 0x1FC100A80342, 0x1EA600C20300,
  0x1EA400C20301, 0x1EAA00C20303, 0x1EA800C20309, 0x01DE00C40304, 0x01FA00C50301, 0x01FC00C60301,
  0x01E200C60304, 0x1E0800C70301, 0x1EC000CA0300, 0x1EBE00CA0301, 0x1EC400CA0303, 0x1EC200CA0309,
  0x1E2E00CF0301, 0x1ED200D40300, 0x1ED000D40301, 0x1ED600D40303, 0x1ED400D40309, 0x1E4C00D50301,
  0x022C00D50304, 0x1E4E00D50308, 0x022A00D60304, 0x01FE00D80301, 0x01DB00DC0300, 0x01D700DC0301,
  0x01D500DC0304, 0x01D900DC030C, 0x1EA700E20300, 0x1EA500E20301, 0x1EAB00E20303, 0x1EA900E20309,
  0x01DF00E40304, 0x01FB00E50301, 0x01FD00E60301, 0x01E300E60304, 0x1E0900E70301, 0x1EC100EA0300,
  0x1EBF00EA0301, 0x1EC500EA0303, 0x1EC300EA0309, 0x1E2F00EF0301, 0x1ED300F40300, 0x1ED100F40301,
  0x1ED700F40303, 0x1ED500F40309, 0x1E4D00F50301, 0x022D00F50304, 0x1E4F00F50308, 0x022B00F60304,
  0x01FF00F80301, 0x01DC00FC0300, 0x01D800FC0301, 0x01D600FC0304, 0x01DA00FC030C, 0x1EB001020300,
  0x1EAE01020301, 0x1EB401020303, 0x1EB201020309, 0x1EB101030300, 0x1EAF01030301, 0x1EB501030303,
  0x1EB301030309, 0x1E1401120300, 0x1E1601120301, 0x1E1501130300, 0x1E1701130301, 0x1E50014C0300,
  0x1E52014C0301, 0x1E51014D0300, 0x1E53014D0301, 0x1E64015A0307, 0x1E65015B0307, 0x1E6601600307,
  0x1E6701610307, 0x1E7801680301, 0x1E7901690301, 0x1E7A016A0308, 0x1E7B016B0308, 0x1E9B017F0307,
  0x1EDC01A00300, 0x1EDA01A00301, 0x1EE001A00303, 0x1EDE01A00309, 0x1EE201A00323, 0x1EDD01A10300,
  0x1EDB01A10301, 0x1EE101A10303, 0x1EDF01A10309, 0x1EE301A10323, 0x1EEA01AF0300, 0x1EE801AF0301,
  0x1EEE01AF0303, 0x1EEC01AF0309, 0x1EF001AF0323, 0x1EEB01B00300, 0x1EE901B00301, 0x1EEF01B00303,
  0x1EED01B00309, 0x1EF101B00323, 0x01EE01B7030C, 0x01EC01EA0304, 0x01ED01EB0304, 0x01E002260304,
  0x01E102270304, 0x1E1C02280306, 0x1E1D02290306, 0x0230022E0304, 0x0231022F0304, 0x01EF0292030C,
  0x034403080301, 0x1FBA03910300, 0x038603910301, 0x1FB903910304, 0x1FB803910306, 0x1F0803910313,
  0x1F0903910314, 0x1FBC03910345, 0x1FC803950300, 0x038803950301, 0x1F1803950313, 0x1F1903950314,
  0x1FCA03970300, 0x038903970301, 0x1F2803970313, 0x1F2903970314, 0x1FCC03970345, 0x1FDA03990300,
  0x038A03990301, 0x1FD903990304, 0x1FD803990306, 0x03AA03990308, 0x1F3803990313, 0x1F3903990314,
  0x1FF8039F0300, 0x038C039F0301, 0x1F48039F0313, 0x1F49039F0314, 0x1FEC03A10314, 0x1FEA03A50300,
  0x038E03A50301, 0x1FE903A50304, 0x1FE803A50306, 0x03AB03A50308, 0x1F5903A50314, 0x1FFA03A90300,
  0x038F03A90301, 0x1F6803A90313, 0x1F6903A90314, 0x1FFC03A90345, 0x1FB403AC0345, 0x1FC403AE0345,
  0x1F7003B10300, 0x03AC03B10301, 0x1FB103B10304, 0x1FB003B10306, 0x1F0003B10313, 0x1F0103B10314,
  0x1FB603B10342, 0x1FB303B10345, 0x1F7203B50300, 0x03AD03B50301, 0x1F1003B50313, 0x1F1103B50314,
  0x1F7403B70300, 0x03AE03B70301, 0x1F2003B70313, 0x1F2103B70314, 0x1FC603B70342, 0x1FC303B70345,
  0x1F7603B90300, 0x03AF03B90301, 0x1FD103B90304, 0x1FD003B90306, 0x03CA03B90308, 0x1F3003B90313,
  0x1F3103B90314, 0x1FD603B90342, 0x1F7803BF0300, 0x03CC03BF0301, 0x1F4003BF0313, 0x1F4103BF0314,
  0x1FE403C10313, 0x1FE503C10314, 0x1F7A03C50300, 0x03CD03C50301, 0x1FE103C50304, 0x1FE003C50306,
  0x03CB03C50308, 0x1F5003C50313, 0x1F5103C50314, 0x1FE603C50342, 0x1F7C03C90300, 0x03CE03C90301,
  0x1F6003C90313, 0x1F6103C90314, 0x1FF603C90342, 0x1FF303C90345, 0x1FD203CA0300, 0x039003CA0301,
  0x1FD703CA0342, 0x1FE203CB0300, 0x03B003CB0301, 0x1FE703CB0342, 0x1FF403CE0345, 0x03D303D20301,
  0x03D403D20308, 0x040704060308, 0x04D004100306, 0x04D204100308, 0x040304130301, 0x040004150300,
  0x04D604150306, 0x040104150308, 0x04C104160306, 0x04DC04160308, 0x04DE04170308, 0x040D04180300,
  0x04E204180304, 0x041904180306, 0x04E404180308, 0x040C041A0301, 0x04E6041E0308, 0x04EE04230304,
  0x040E04230306, 0x04F004230308, 0x04F20423030B, 0x04F404270308, 0x04F8042B0308, 0x04EC042D0308,
  0x04D104300306, 0x04D304300308, 0x045304330301, 0x045004350300, 0x04D704350306, 0x045104350308,
  0x04C204360306, 0x04DD04360308, 0x04DF04370308, 0x045D04380300, 0x04E304380304, 0x043904380306,
  0x04E504380308, 0x045C043A0301, 0x04E7043E0308, 0x04EF04430304, 0x045E04430306, 0x04F104430308,
  0x04F30443030B, 0x04F504470308, 0x04F9044B0308, 0x04ED044D0308, 0x045704560308, 0x04760474030F,
  0x04770475030F, 0x04DA04D80308, 0x04DB04D90308, 0x04EA04E80308, 0x04EB04E90308, 0xFB2E05D005B7,
  0xFB2F05D005B8, 0xFB3005D005BC, 0xFB3105D105BC, 0xFB4C05D105BF, 0xFB3205D205BC, 0xFB3305D305BC,
  0xFB3405D405BC, 0xFB4B05D505B9, 0xFB3505D505BC, 0xFB3605D605BC, 0xFB3805D805BC, 0xFB1D05D905B4,
  0xFB3905D905BC, 0xFB3A05DA05BC, 0xFB3B05DB05BC, 0xFB4D05DB05BF, 0xFB3C05DC05BC, 0xFB3E05DE05BC,
  0xFB4005E005BC, 0xFB4105E105BC, 0xFB4305E305BC, 0xFB4405E405BC, 0xFB4E05E405BF, 0xFB4605E605BC,
  0xFB4705E705BC, 0xFB4805E805BC, 0xFB4905E905BC, 0xFB2A05E905C1, 0xFB2B05E905C2, 0xFB4A05EA05BC,
  0xFB1F05F205B7, 0x062206270653, 0x062306270654, 0x062506270655, 0x062406480654, 0x0626064A0654,
  0x06C206C10654, 0x06D306D20654, 0x06C006D50654, 0x09580915093C, 0x09590916093C, 0x095A0917093C,
  0x095B091C093C, 0x095C0921093C, 0x095D0922093C, 0x09290928093C, 0x095E092B093C, 0x095F092F093C,
  0x09310930093C, 0x09340933093C, 0x09DC09A109BC, 0x09DD09A209BC, 0x09DF09AF09BC, 0x09CB09C709BE,
  0x09CC09C709D7, 0x0A590A160A3C, 0x0A5A0A170A3C, 0x0A5B0A1C0A3C, 0x0A5E0A2B0A3C, 0x0A330A320A3C,
  0x0A360A380A3C, 0x0B5C0B210B3C, 0x0B5D0B220B3C, 0x0B4B0B470B3E, 0x0B480B470B56, 0x0B4C0B470B57,
  0x0B940B920BD7, 0x0BCA0BC60BBE, 0x0BCC0BC60BD7, 0x0BCB0BC70BBE, 0x0C480C460C56, 0x0CC00CBF0CD5,
  0x0CCA0CC60CC2, 0x0CC70CC60CD5, 0x0CC80CC60CD6, 0x0CCB0CCA0CD5, 0x0D4A0D460D3E, 0x0D4C0D460D57,
  0x0D4B0D470D3E, 0x0DDA0DD90DCA, 0x0DDC0DD90DCF, 0x0DDE0DD90DDF, 0x0DDD0DDC0DCA, 0x0F690F400FB5,
  0x0F430F420FB7, 0x0F4D0F4C0FB7, 0x0F520F510FB7, 0x0F570F560FB7, 0x0F5C0F5B0FB7, 0x0F730F710F72,
  0x0F750F710F74, 0x0F810F710F80, 0x0FB90F900FB5, 0x0F930F920FB7, 0x0F9D0F9C0FB7, 0x0FA20FA10FB7,
  0x0FA70FA60FB7, 0x0FAC0FAB0FB7, 0x0F760FB20F80, 0x0F780FB30F80, 0x10261025102E, 0x1B061B051B35,
  0x1B081B071B35, 0x1B0A1B091B35, 0x1B0C1B0B1B35, 0x1B0E1B0D1B35, 0x1B121B111B35, 0x1B3B1B3A1B35,
  0x1B3D1B3C1B35, 0x1B401B3E1B35, 0x1B411B3F1B35, 0x1B431B421B35, 0x1E381E360304, 0x1E391E370304,
  0x1E5C1E5A0304, 0x1E5D1E5B0304, 0x1E681E620307, 0x1E691E630307, 0x1EAC1EA00302, 0x1EB61EA00306,
  0x1EAD1EA10302, 0x1EB71EA10306, 0x1EC61EB80302, 0x1EC71EB90302, 0x1ED81ECC0302, 0x1ED91ECD0302,
  0x1F021F000300, 0x1F041F000301, 0x1F061F000342, 0x1F801F000345, 0x1F031F010300, 0x1F051F010301,
  0x1F071F010342, 0x1F811F010345, 0x1F821F020345, 0x1F831F030345, 0x1F841F040345, 0x1F851F050345,
  0x1F861F060345, 0x1F871F070345, 0x1F0A1F080300, 0x1F0C1F080301, 0x1F0E1F080342, 0x1F881F080345,
  0x1F0B1F090300, 0x1F0D1F090301, 0x1F0F1F090342, 0x1F891F090345, 0x1F8A1F0A0345, 0x1F8B1F0B0345,
  0x1F8C1F0C0345, 0x1F8D1F0D0345, 0x1F8E1F0E0345, 0x1F8F1F0F0345, 0x1F121F100300, 0x1F141F100301,
  0x1F131F110300, 0x1F151F110301, 0x1F1A1F180300, 0x1F1C1F180301, 0x1F1B1F190300, 0x1F1D1F190301,
  0x1F221F200300, 0x1F241F200301, 0x1F261F200342, 0x1F901F200345, 0x1F231F210300, 0x1F251F210301,
  0x1F271F210342, 0x1F911F210345, 0x1F921F220345, 0x1F931F230345, 0x1F941F240345, 0x1F951F250345,
  0x1F961F260345, 0x1F971F270345, 0x1F2A1F280300, 0x1F2C1F280301, 0x1F2E1F280342, 0x1F981F280345,
  0x1F2B1F290300, 0x1F2D1F290301, 0x1F2F1F290342, 0x1F991F290345, 0x1F9A1F2A0345, 0x1F9B1F2B0345,
  0x1F9C1F2C0345, 0x1F9D1F2D0345, 0x1F9E1F2E0345, 0x1F9F1F2F0345, 0x1F321F300300, 0x1F341F300301,
  0x1F361F300342, 0x1F331F310300, 0x1F351F310301, 0x1F371F310342, 0x1F3A1F380300, 0x1F3C1F380301,
  0x1F3E1F380342, 0x1F3B1F390300, 0x1F3D1F390301, 0x1F3F1F390342, 0x1F421F400300, 0x1F441F400301,
  0x1F431F410300, 0x1F451F410301, 0x1F4A1F480300, 0x1F4C1F480301, 0x1F4B1F490300, 0x1F4D1F490301,
  0x1F521F500300, 0x1F541F500301, 0x1F561F500342, 0x1F531F510300, 0x1F551F510301, 0x1F571F510342,
  0x1F5B1F590300, 0x1F5D1F590301, 0x1F5F1F590342, 0x1F621F600300, 0x1F641F600301, 0x1F661F600342,
  0x1FA01F600345, 0x1F631F610300, 0x1F651F610301, 0x1F671F610342, 0x1FA11F610345, 0x1FA21F620345,
  0x1FA31F630345, 0x1FA41F640345, 0x1FA51F650345, 0x1FA61F660345, 0x1FA71F670345, 0x1F6A1F680300,
  0x1F6C1F680301, 0x1F6E1F680342, 0x1FA81F680345, 0x1F6B1F690300, 0x1F6D1F690301, 0x1F6F1F690342,
  0x1FA91F690345, 0x1FAA1F6A0345, 0x1FAB1F6B0345, 0x1FAC1F6C0345, 0x1FAD1F6D0345, 0x1FAE1F6E0345,
  0x1FAF1F6F0345, 0x1FB21F700345, 0x1FC21F740345, 0x1FF21F7C0345, 0x1FB71FB60345, 0x1FCD1FBF0300,
  0x1FCE1FBF0301, 0x1FCF1FBF0342, 0x1FC71FC60345, 0x1FF71FF60345, 0x1FDD1FFE0300, 0x1FDE1FFE0301,
  0x1FDF1FFE0342, 0x309430463099, 0x304C304B3099, 0x304E304D3099, 0x3050304F3099, 0x305230513099,
  0x305430533099, 0x305630553099, 0x305830573099, 0x305A30593099, 0x305C305B3099, 0x305E305D3099,
  0x3060305F3099, 0x306230613099, 0x306530643099, 0x306730663099, 0x306930683099, 0x3070306F3099,
  0x3071306F309A, 0x307330723099, 0x30743072309A, 0x307630753099, 0x30773075309A, 0x307930783099,
  0x307A3078309A, 0x307C307B3099, 0x307D307B309A, 0x309E309D3099, 0x30F430A63099, 0x30AC30AB3099,
  0x30AE30AD3099, 0x30B030AF3099, 0x30B230B13099, 0x30B430B33099, 0x30B630B53099, 0x30B830B73099,
  0x30BA30B93099, 0x30BC30BB3099, 0x30BE30BD3099, 0x30C030BF3099, 0x30C230C13099, 0x30C530C43099,
  0x30C730C63099, 0x30C930C83099, 0x30D030CF3099, 0x30D130CF309A, 0x30D330D23099, 0x30D430D2309A,
  0x30D630D53099, 0x30D730D5309A, 0x30D930D83099, 0x30DA30D8309A, 0x30DC30DB3099, 0x30DD30DB309A,
  0x30F730EF3099, 0x30F830F03099, 0x30F930F13099, 0x30FA30F23099, 0x30FE30FD3099, 0xFB2CFB4905C1,
  0xFB2DFB4905C2]

/-- The same rows in the order of the replacements. -/
def decompositions : List ℕ := arrange 10 precompositions

def precompositionsSp : List ℕ := [
  0xD801DDC9D801DDD2D7C0DF07, 0xD801DDE4D801DDDAD7C0DF07, 0xD804DC9AD804DC99D804DCBA,
  0xD804DC9CD804DC9BD804DCBA, 0xD804DCABD804DCA5D804DCBA, 0xD804DD2ED804DD31D804DD27,
  0xD804DD2FD804DD32D804DD27, 0xD804DF4BD804DF47D804DF3E, 0xD804DF4CD804DF47D804DF57,
  0xD804DF83D804DF82D804DFC9, 0xD804DF85D804DF84D804DFBB, 0xD804DF8ED804DF8BD804DFC2,
  0xD804DF91D804DF90D804DFC9, 0xD804DFC7D804DFC2D804DFB8, 0xD804DFC5D804DFC2D804DFC2,
  0xD804DFC8D804DFC2D804DFC9, 0xD805DCBCD805DCB9D805DCB0, 0xD805DCBBD805DCB9D805DCBA,
  0xD805DCBED805DCB9D805DCBD, 0xD805DDBAD805DDB8D805DDAF, 0xD805DDBBD805DDB9D805DDAF,
  0xD806DD38D806DD35D806DD30, 0xD818DD21D818DD1ED818DD1E, 0xD818DD23D818DD1ED818DD1F,
  0xD818DD25D818DD1ED818DD20, 0xD818DD22D818DD1ED818DD29, 0xD818DD26D818DD21D818DD1F,
  0xD818DD28D818DD21D818DD20, 0xD818DD27D818DD22D818DD1F, 0xD818DD24D818DD29D818DD1F,
  0xD81BDD69D81BDD63D81BDD67, 0xD81BDD68D81BDD67D81BDD67, 0xD81BDD6AD81BDD69D81BDD67,
  0xD834DD5ED834DD57D834DD65, 0xD834DD5FD834DD58D834DD65, 0xD834DD60D834DD5FD834DD6E,
  0xD834DD61D834DD5FD834DD6F, 0xD834DD62D834DD5FD834DD70, 0xD834DD63D834DD5FD834DD71,
  0xD834DD64D834DD5FD834DD72, 0xD834DDBBD834DDB9D834DD65, 0xD834DDBCD834DDBAD834DD65,
  0xD834DDBDD834DDBBD834DD6E, 0xD834DDBFD834DDBBD834DD6F, 0xD834DDBED834DDBCD834DD6E,
  0xD834DDC0D834DDBCD834DD6F]

def decompositionsSp : List ℕ := arrange 6 precompositionsSp

def tables : Tables where
  precompositions := precompositions.map row
  decompositions := decompositions.map row
  precompositionsSp := precompositionsSp.map rowSp
  decompositionsSp := decompositionsSp.map rowSp

/-! ### They are sorted -/

theorem row_key (n : ℕ) : (row n).key = n % 2 ^ 32 := by
  simp only [Row.key, row]
  omega

theorem rowSp_keySp (n : ℕ) : (rowSp n).keySp = n % 2 ^ 64 := by
  simp only [Row.keySp, rowSp]
  omega

theorem pairwise_map_of_isChain {codes : List ℕ} {toRow : ℕ → Row} {key : Row → ℕ} {code : ℕ → ℕ}
    (hkey : ∀ n, key (toRow n) = code n) (h : (codes.map code).IsChain (· < ·)) :
    (codes.map toRow).Pairwise fun r s => key r < key s := by
  have h := pairwise_map.mp (isChain_iff_pairwise.mp h)
  refine pairwise_map.mpr (h.imp fun {m n} hmn => ?_)
  rw [hkey, hkey]
  exact hmn

/-! ### They hold the same rows -/

theorem mem_map_arrange_iff (n : ℕ) (xs : List ℕ) (toRow : ℕ → Row) (r : Row) :
    r ∈ (arrange n xs).map toRow ↔ r ∈ xs.map toRow :=
  ((arrange_perm n xs).map toRow).mem_iff

/-! ### What stands in them -/

/-- A number outside the ranges of Hangul, of the surrogates and of the punctuation. -/
def Plain (c : ℕ) : Prop :=
  0x30 ≤ c ∧ c < 0x1100 ∨ 0x1200 ≤ c ∧ c < 0x2000 ∨ 0x3000 ≤ c ∧ c < 0xAC00 ∨
    0xE000 ≤ c ∧ c < 0x10000

instance (c : ℕ) : Decidable (Plain c) := inferInstanceAs (Decidable (_ ∨ _))

theorem Plain.clean {c : ℕ} (h : Plain c) : (Letter.unit c).Clean := by
  rw [Plain] at h
  refine ⟨?_, ?_, ?_⟩
  · rw [Letter.Loose, Letter.Valid]
    omega
  · rw [Letter.Bidi]
    omega
  · rintro ⟨⟩
    omega

theorem precompositions_plain : ∀ n ∈ precompositions,
    Plain (n / 2 ^ 32) ∧ 0x80 ≤ n / 2 ^ 32 ∧ Plain (n / 2 ^ 16 % 2 ^ 16) ∧
      Plain (n % 2 ^ 16) ∧ 0x300 ≤ n % 2 ^ 16 := by
  decide +kernel

theorem fits_row {n : ℕ} (hn : n ∈ precompositions) : (row n).Fits := by
  obtain ⟨hr, hascii, hb, hc, hcomb⟩ := precompositions_plain n hn
  have hr' := hr
  have hb' := hb
  have hc' := hc
  rw [Plain] at hr' hb' hc'
  exact {
    replacement := hr.clean
    ascii := hascii
    base := hb.clean
    comb := hc.clean
    combining := hcomb
    vowel := by
      simp only [row, vbase, vcount]
      omega
    trailing := by
      simp only [row, tbase, tcount]
      omega
    leading := by
      simp only [row, lbase, lcount]
      omega
    syllable := by
      simp only [row, Syllable, sbase, scount]
      omega
    baseSyllable := by
      simp only [row, Syllable, sbase, scount]
      omega }

/-! ### No letter is made of itself -/

/-- The letters that stand before a letter which they are made of, as intervals. -/
def backward : List (ℕ × ℕ) :=
  [(0x1E0, 0x1E1), (0x1EF, 0x1EF), (0x386, 0x390), (0x3AC, 0x3B0), (0x400, 0x403), (0x40C, 0x40E),
    (0x622, 0x626), (0x6C0, 0x6C0), (0xA36, 0xA36), (0xF76, 0xF78), (0x1FB4, 0x1FB4),
    (0x1FC4, 0x1FC4), (0x1FDD, 0x1FDF), (0xFB2C, 0xFB2D)]

/-- The same for pairs. -/
def backwardSp : List (ℕ × ℕ) :=
  [(0xD801DDC9, 0xD801DDC9), (0xD804DD2E, 0xD804DD2F), (0xD818DD24, 0xD818DD24)]

/-- The number of a letter, after those of all others if it is one of `late`. -/
def lateRank (late : List (ℕ × ℕ)) (c : ℕ) : ℕ :=
  bif late.any fun i => i.1.ble c && c.ble i.2 then c + 2 ^ 32 else c

theorem tables_good : tables.Good where
  sorted := pairwise_map_of_isChain row_key (by decide +kernel)
  sortedSp := pairwise_map_of_isChain rowSp_keySp (by decide +kernel)
  decSorted := pairwise_map_of_isChain (fun _ => rfl) (by decide +kernel)
  decSortedSp := pairwise_map_of_isChain (fun _ => rfl) (by decide +kernel)
  inverse := mem_map_arrange_iff 10 precompositions row
  inverseSp := mem_map_arrange_iff 6 precompositionsSp rowSp
  fits := List.forall_mem_map.mpr fun _ hn => fits_row hn
  fitsSp := by
    have hpairs : ∀ n ∈ precompositionsSp, (Letter.pair (n / 2 ^ 64)).Valid ∧
        (Letter.pair (n / 2 ^ 32 % 2 ^ 32)).Valid ∧ Low (n % 2 ^ 32 % 0x10000) := by
      decide +kernel
    refine List.forall_mem_map.mpr fun n hn => ?_
    obtain ⟨hr, hb, hc⟩ := hpairs n hn
    exact ⟨hr, hb, hc, Nat.mod_lt n (by decide)⟩
  ranked := ⟨lateRank backward, List.forall_mem_map.mpr (by decide +kernel)⟩
  rankedSp := ⟨lateRank backwardSp, List.forall_mem_map.mpr (by decide +kernel)⟩

end Netatalk.Unicode
