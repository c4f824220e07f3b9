import Motif.Text.Property.Named

/-!
# Scripts

The script that a character belongs to, or `Common` and `Inherited` for what several share. The
characters in use in a script are not quite those that belong to it: some are shared with others.
-/

namespace Motif.Text.Property

structure Script where
  names : List String
  /-- The characters that belong to the script, as runs. -/
  own : String
  /-- What differs from those in the characters that are in use in the script, as runs. -/
  shared : String

def scripts : List Script := (rows
  "adlm adlam = fdtMcDEJEB = brTA6AhdKAdvFA;
  ahom = cyiA0COEW;
  hluw anatolianhieroglyphs = dkqAqG;
  arab arabic = bqYEBFBNBCB5BJLZBc9B7cIbLgY4BBFcCB2cohEdGQkCCcHCbRHA6PdEEBd0efP4b5CbTDciz2DB0BBBACAB
  JBDBABAGAEABABABCBBBACABAACBBBACDBGBDBDBABJBQFCBEBQbQB = brAAOADA6AKK0Ahb8AdvFAcep6BboA1;
  armn armenian = bk7bBCbNCCcpd5E = vUA;
  avst avestan = cvaYbRDG = fDAmlMB;
  bali balinese = hkAcEBbN;
  bamu bamum = bto6cPcauYp2;
  bass bassavah = dvgA3CF;
  batk batak = hpMbPID;
  beng bengali = cpUDBHCBCVBGBADDCICBCDIAEBBECY = tQAbu2BRBfiCABACBBAIAIACAEACCbmhNA;
  bhks bhaiksuki = czrUIBbIBNK2;
  bopo bopomofo = u0Bmp3bGdE5 = t1ABCNAmjDCEJBMKDCAGAfPAced3Bh4E;
  brah brahmi = cwkIcFE9JA;
  brai braille = kyQhD;
  bugi buginese = hc61CB = bulTA;
  buhd buhid = gjMT = gjBB;
  cans canadianaboriginal = fmIr1pUb7csm0P;
  cari carian = cstEbM = fDAiq8ACAduLA;
  aghb caucasianalbanian = ctlMbPLA = vQAbIAAA;
  cakm chakma = cwrMbQBR = csOJbs6J;
  cham = bum6bSJNCJCD;
  cher cherokee = fjUcNCFbpk8cH = vMCBAGBWBLB;
  chrs chorasmian = cwiA1;
  zyyy common = Ab20F0bKBOBEXA5AmRbCFECTdIAJAGABArZAGAOADA6AeMAoMAdVBbiRAlJDiCAbqHCb9BfXBBAbiFANAHDB
  FBCCAvRLCcOBKDKBOR6b1bBBCCFB0BQbFCEsRWKVz1hErPC5Bc6oIcVlGUBABYPHEDcTBDAcSBeDP6bBJAbMb15cIbLAcQeXhb
  Eb1yi67c4CeVJg2AeQAk9AOBwj4Bf2JW8BSBDeDAB50F0KKAbJBb2GBGKEhGCEbIDIcIMbPbIgM0byuEDefIg7GmDeMdHbYg3K
  bCCbZDQIBH3EbYf7TMTMcOJYd1cMBb8BBCACBCDBLBABGBb2BDCHBGB1BDBEBADGBjPCiDCbNfpNb5cEbYtWbHEc1MOCOBOBbA
  Ke3bUZBBNbHEIHBOFeKbbLEQDMDdKEcWGLEAPLEbTIJGbDI3CLEBb0jPMNCMDJFbTHOCKGIHeCBc3bgjh9A4cX = fDAoMAKAB
  CBAJABAeKAsPAOADA6AwLBcb7AbqHCb9BfXBBAbiFANAHDBFBCCAw2A5AKACAdtVAYBKAEABAl6PBCCABJBMQFBAEDcTBDAcSB
  eDP6bBJAbMbDbUbMPLbPAcQYKEcY4bfl3HiIJg2AeQAwvKBhJBh4EKAbJBj2CEbIDIlV0byuEDgfYRilSB;
  copt coptic qaac = bbWNlcQdHFG = fDAqIADBBAdABlrFAcgfE1;
  xsux cuneiform = dauAzVc4dCBELfP;
  cprt cypriot = cufMFCABbHBBDACA = cshUCEbIDI;
  cpmn cyprominoan = dfaYc0 = cshUB;
  cyrl cyrillic = bcQdYCeYgj2KeQAcEAemX5bgxEcXxyWBcjvEbZ7A = tQAb5CBAABCAFAkLBgy7Ael4A;
  dsrt deseret = ctc6cH;
  deva devanagari = cmAcIEOCZbrpM5bfeYJ = tQAbu2BRBfiCbCBBbcGAbkz1J;
  diak divesakuru = cywIGCACHBBB3BBCLJJ;
  dogr dogra = cypEbX = co2Lbrk6J;
  dupl duployan = erlMc8FMDIHJCD = fDAqPBBAYBluPAeey9D;
  egyp egyptianhieroglyphs = dfd2be3Keg8;
  elba elbasan = ctkAbD = fDAqNA;
  elym elymaic = cwjMW;
  ethi ethiopic = eyAcABDCGBABDCbEBDC6BDCGBABDCOBbUBDCb4C5DZhcGWJGBGAFbif4FCFCFJGBGdiqBGBDBBBO = v0
  A;
  gara garay = cvqYbBD2IB = brAAOADA;
  geor georgian = eoIbBBAFACbGBDdeIbGCCelUbBBAFA = fDAbiJAddNAefKAduOA;
  glag glagolitic = ma6cXepd2GBQCGBBBE = fDAqLABAkWACAhFAddNAefKAdu6AbgwTA;
  goth gothic = csxE0 = fDAqMBCAbEA;
  gran grantha = cxfUDBHCBCVBGBBBECICBCCCAGAFGCGDE = coJBRBr2Nep6ABB4CDBbcGAcog8AdlQBBA;
  grek greek = yQDBCCDBAEABABCBABTBb0OPgw4EbOEEEcMAi6VCFCbBCFCHBAABB4CbQBOBNCFBSCCBIiHAblvCAxmScGRAc
  ez1b7 = fDAqIBCABABAKAbKACAbKAhe9BsTA;
  gujr gujarati = cwZCBIBCBVBGBBBECJBCBCCAPDCLHG = coJBRBbrlGJ;
  gong gunjalagondi = dabMFBBBbABBBFHJ = fDAcjYB;
  guru gurmukhi = ctFCBFEBCVBGBBABCABEEBCCDAHDBAHQ = coJBRBbrlGJ;
  gukh gurungkhema = dsoIbV = co3A;
  hani han = msYZBcQMf7bLABAZIODba2hbDb2wlDyi6kFCc7bgaIBMBbnkObtqX6elNGgFCgeBOhzUPrJcqSpBbp4fhGFemP
  = fDAmx2PBCCABJBMKDCAGAEDfHAeEP6bBJAbMbDbUbMPLbPAcQYKEcY4bfl3HxwNBh4EcfzORilSB;
  hang hangul = eq6hDigWBhFcVdF4b34bgnN2r5lyLMWEbMkv64DFCFCFCC = ndNCEJBMQAGAfPAced3Bh4E;
  rohg hanifirohingya = cvo6bDIJ = brAAOADA6AeDA;
  hano hanunoo = giQU = gjBB;
  hatr hatran = culUSBBFE;
  hebr hebrew = bnVbSI0EFcpbMZBEBABBBBBJ = vTB;
  hira hiragana = nfFcNGCeawJh8SA3Crr7A = ndNCEJBMQFBAEBcTDDAcSBced2Bh4EKAbJB;
  armi imperialaramaic = cuhEVBI;
  zinh inherited qaai = vMdDhZBmUK0AuQDetP4oJCBMBGEAGADBfSb1oUBfO6eeJDc9BceeVPQNbbDAgKAemKAbzjIbJCWp
  ECRHCG4Dbgvd4gX = vMOBBBAPCHBBBQACASAFAEMhZBmUK0AuQBfiVCBMBGEAGADBfSBbSABAvBAeeJDc9BcfnJAemKA;
  phli inscriptionalpahlavi = cvdMSFH;
  prti inscriptionalparthian = cvcQVCH;
  java javanese = bujMcFCJEB = bulTA;
  kthi kaithi = cwn2b4KA = co4JkbNAbhjSJ;
  knda kannada = dk6MBCBWBJBECIBCBDHBGBBDCJBC = coJBRBfiCABBGAXABAbmcDF;
  kana katakana = nh3cRCCgYPf2bKBcPcdvCJBbIbwf4DBGBBBAh9CbOAOD = vRA3AmhBCEJBMQFBAEBcTDDAcSBced2Bh4E
  KAbJB;
  kawi = dam6QBbED2;
  kali kayahli = buf2bJBA = buhCA;
  khar kharoshthi = cutUDBBFHBCB2CCEJHI;
  kits khitansmallscript = dwqEAhk1nBbFA;
  khmr khmer = glEcVCJGJnS5;
  khoj khojki = cwyQRBbK = czSJbraIJ;
  sind khudawadi = cxdMbWFJ = co2BbrlGJ;
  krai kiratrai = dvxMbV;
  laoo lao = dzFBBABEBXBABWCEBABGBJCD;
  latn latin = b3ZGZbLAPAFWB4BmQbDEhdXbBGbMFDFMBb7b3hDkJANAQMd7BGA1ARbEczD5bhoCc3Db4CBBABHVNwYbGBIBD
  vt8GbdGZGZcf7FBbFBIcgw34GF = fDAoMAKABCBAJABAbCOBBBAPCHBBBbCAFAEMhZBbiCBccQAdoMAp0AfMAdpSAbhb2HpK
  A;
  lepc lepcha = hrEbTDODC;
  limb limbu = gv24BLELEADL = co3A;
  lina lineara = ctrEiWJVKH = csh1bI;
  linb linearb = csaQLBZBSBBBOCN8dO = cshUCEbIDI;
  lisu = btcAbLbhoQA = tQAQAmjYB;
  lyci lycian = cssI2 = iwCA;
  lydi lydian = cunMZFA = fDAmlNA;
  mahj mahajani = cwtUbC = fDAcjYLbrk6J;
  maka makasar = damAY;
  mlym malayalam = doQMBCBbOBCBFEPCZ = coJBRBfiMAXAbmcFC;
  mand mandaic = cgY1CA = bsQA;
  mani manichaean = cuy6bCEL = bsQA;
  marc marchen = czuY5CVBN;
  gonm masaramgondi = czyYGBBBbHDABBBIIJ = co2B;
  medf medefaidrin = dweQcS;
  mtei meeteimayek = butEWfVbJCJ;
  mend mendekikakui = fdmIfQCP;
  merc meroiticcursive = cuq6XETCbJ;
  mero meroitichieroglyphs = cuqA5 = iwFA;
  plrd miao = dwj2cCEbUHQ;
  modi = cya6b6LJ = buaAJ;
  mong mongolian = goYBCABTGcQHbGcrkFM = go0BBAcgBAeiRBFD;
  mroo mro = dvcA4BJEB;
  mult multani = cxcAGBABDBOBK = cv8J;
  mymr myanmar = ej2ePbpx24cZ5bdqIT = buhCA;
  nbat nabataean = cui64II;
  nagm nagmundari = fcpUbF;
  nand nandinagari = czaYHCbJCK = coJASBy6JejVAIAHAbmb7F;
  talu newtailue = gzMbHEZGKDB;
  newa = cxmYcTBE = coJBfi0ABBJAGABABA;
  nkoo nko = cdEbWCC = brAAOADAcppKB;
  nshu nushu = dwqBAryGk9;
  hmnp nyiakengpuachuehmong = fboQbIDNCJEB;
  ogam ogham = geA2;
  olck olchiki = htMbL;
  onao olonal = fcwYbGEA = co2B;
  hung oldhungarian = cvlMbONbOHF = iwCACAduLAPA;
  ital olditalic = csv29JC;
  narb oldnortharabian = cuxE5;
  perm oldpermic = csyAbG = fDAqIAFCKAkHA;
  xpeo oldpersian = ctaI9EN;
  sogo oldsogdian = cwdEbD;
  sarb oldsoutharabian = cuwI5;
  orkh oldturkic = cvh2cA = iwCAduNA;
  ougr olduyghur = cwgIZ = bsQActh3A;
  orya oriya = daJCBHCBCVBGBBBECICBCCHCEBBECR = coJBRBfiMAXA;
  osge osage = cth29E9 = vNACAGAcEA;
  osma osmanya = ctgQ3CJ;
  hmng pahawhhmong = dvhMb7KJBGBUFS;
  palm palmyrene = cuiA5;
  pauc paucinhau = cziYbU;
  phag phagspa = buaQbT = go0BBAcgBAeiSA;
  phnx phoenician = cumQ1DA;
  phlp psalterpahlavi = cveIRHDMG = bsQA;
  rjng rejang = buhE9LA;
  runr runic = ge6cCDK = gg9C;
  samr samaritan = ce6bJCO = mqRA;
  saur saurashtra = bucIb7IL;
  shrd sharada = cwu6cX = coJAfi3ABACBCAJACAbmcKFCA;
  shaw shavian = ctfEbL = fDA;
  sidd siddham = cxxMbRCbB;
  sgnw signwriting = ezcQsDPEBO;
  sinh sinhala = dsBCBRDXBIBACGDAEFBABHGJCCctcMT = co2BfjAA;
  sogd sogdian = cweQbF = bsQA;
  sora sorasompeng = cwqAYHJ;
  soyo soyombo = czfUcK;
  sund sundanese = hnUb1hEH;
  sunu sunuwar = czp27OJ = vMBBAJACA2ADA;
  sylo sylotinagri = btyYbI = co2BdUJ;
  syrc syriac = bx2NBbXCChUK = vPBCBBAYCHBBBuKAOBCA6AKK0AglLABA;
  tglg tagalog = ghUVJA = gjBB;
  tagb tagbanwa = gkIMBCBB = gjBB;
  tale taile = gyA3CE = vMBFBDAdp5J;
  lana taitham = hd2b0B2CKGJGN;
  tavt taiviet = buqQb4YE;
  takr takri = cyeQbVGJ = co2BbrlGJ;
  taml tamil = dd4BBFDCBDDBBABBDBDCDLEEDCBDCAGAOUcxlBbNNA = coJBRBfiMAbmiIAbdaFABAbTB;
  tnsa tangsa = dvdMcGBJ;
  tang tangut = dwqAA5goPIvLoII = nc6Pn1A;
  telu telugu = dhMMBCBWBPCIBCBDHBBCCACDCJHI = coJBRBfiHBBABAXA;
  thaa thaana = cbMbN = brAAOBCAb2JcpsIAKA;
  thai = dvVbVF1 = tQA0AbHAbJA;
  tibt tibetan = ecYb9B9EbCB9BOBGEB = ndUD;
  tfng tifinagh = mjMbTHBOA = vOABABDZA;
  tirh tirhuta = cxqIb9IJ = coJBRBfiHAMAPAbmcFJ;
  todr todhri = ctpMbP = vNACACAJABAcCA;
  toto = fbzU4 = tQA;
  tutg tulutigalari = cxjEJBACABbBBJBACABDBJBBIB = dn0Jej4ABAbmcDFfHA;
  ugar ugaritic = cszM3BA;
  vaii vai = btdMiL;
  vith vithkuqi = ctnEKBOBGBBBKBOBGBB;
  wcho wancho = fca6bVFA;
  wara warangciti = cytUcKMA;
  yezi yezidi = cvzUbFBCCB = brAAOADAb2J;
  yiii yi = brt2bgMDbS = ndNBFJCHgHAcelZE;
  zanb zanabazarsquare = czdMb9").filterMap fun
    | [names, own] => some { names := words names, own, shared := "" }
    | [names, own, shared] => some { names := words names, own, shared }
    | _ => none

def script? (name : String) : Option CharSet :=
  (scripts.find? fun s => s.names.contains name).map fun s => .ofRuns s.own

def scriptExtension? (name : String) : Option CharSet :=
  (scripts.find? fun s => s.names.contains name).map fun s =>
    (CharSet.ofRuns s.own).symmDiff (.ofRuns s.shared)

end Motif.Text.Property
