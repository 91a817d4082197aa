import Semestre6.Lib.Transition
import Semestre6.Lib.Conservation
import Semestre6.Lib.Octets
import Semestre6.Lib.Piles
import Semestre6.Lib.Descripteurs
import Semestre6.Lib.Boucle
import Semestre6.Lib.Minimum
import Semestre6.Lib.Multigraphe
import Semestre6.Lib.MeilleurDabord
import Semestre6.Lib.ArbreDeRecherche
import Semestre6.Lib.Fenetre
import Semestre6.Lib.Jointure
import Semestre6.Lib.Dictionnaire
import Semestre6.Lib.Incidence
import Semestre6.Lib.Tampon
import Semestre6.Lib.SousSuite
import Semestre6.Lib.EnveloppeConvexe
import Semestre6.Lib.Trajets
import Semestre6.Ftp.Define
import Semestre6.Ftp.Transfert
import Semestre6.Ftp.Reprise
import Semestre6.Ftp.Parse
import Semestre6.Ftp.Esclave
import Semestre6.Ftp.Client
import Semestre6.Ftp.Session
import Semestre6.Ftp.StockIp
import Semestre6.Ftp.StockPiles
import Semestre6.Ftp.Relais
import Semestre6.Ftp.Maitre
import Semestre6.Ftp.Alignement
import Semestre6.Ftp.Systeme
import Semestre6.Ftp.SystemeAccord
import Semestre6.Ftp.SystemePannes
import Semestre6.Ftp.Tampons
import Semestre6.Ftp.FinDeFichier
import Semestre6.Ensemble.EnsembleEntiers
import Semestre6.Ensemble.Hashtable
import Semestre6.Shell.Readcmd
import Semestre6.Shell.Grammaire
import Semestre6.Shell.Impression
import Semestre6.Shell.Pipeline
import Semestre6.Shell.Jobs
import Semestre6.Graphe.Partition
import Semestre6.Graphe.GraphePondere
import Semestre6.Graphe.Kruskal
import Semestre6.Graphe.KruskalSurPlace
import Semestre6.Graphe.PartitionTableau
import Semestre6.Graphe.EnumP
import Semestre6.Graphe.Couplage
import Semestre6.Sokoban.Case
import Semestre6.Sokoban.Terrain
import Semestre6.Sokoban.Moteur
import Semestre6.Sokoban.Partie
import Semestre6.Sokoban.Ecouteurs
import Semestre6.Sokoban.FileAPriorite
import Semestre6.Sokoban.MiseAJour
import Semestre6.Sokoban.Poussees
import Semestre6.Sokoban.Score
import Semestre6.Sokoban.Explorer
import Semestre6.Sokoban.ExplorerSurPlace
import Semestre6.Texte.RechercheMotif
import Semestre6.Texte.SousSeq
import Semestre6.Texte.Scanner
import Semestre6.Texte.Pipo
import Semestre6.Texte.Frequences
import Semestre6.Fichiers.Joiner
import Semestre6.Fichiers.Operateurs
import Semestre6.Geometrie.Jarvis
import Semestre6.Ressources.FileAPriorite
import Semestre6.Lib.RubanInfini
import Semestre6.Lib.SansNoms
import Semestre6.Lib.PointFixe
import Semestre6.MCal.BitVector
import Semestre6.MCal.Band
import Semestre6.MCal.LambdaTerm
import Semestre6.MCal.Reduce
import Semestre6.MCal.FormeNormale
import Semestre6.Ensemble.IterateurTableau
import Semestre6.Texte.Lecture
import Semestre6.Graphe.NonOriente
import Semestre6.Graphe.Matrices
import Semestre6.Graphe.Lecteurs
import Semestre6.Graphe.LireGraphe
import Semestre6.Lib.Jetons
import Semestre6.Shell.Decoupage
import Semestre6.Shell.Readline
import Semestre6.Shell.Fuites
import Semestre6.Shell.Phrase
import Semestre6.Shell.Acces
import Semestre6.Sokoban.TerrainGraphique
import Semestre6.Sokoban.Relecture
import Semestre6.Sokoban.MoteurSurPlace
import Semestre6.Graphe.EnumPTableaux
import Semestre6.Lib.Borne
import Semestre6.Lib.Morceaux
import Semestre6.Lib.Equite
import Semestre6.MCal.Execution
import Semestre6.MCal.Logique
import Semestre6.MCal.Cadre
import Semestre6.MCal.Arithmetique
import Semestre6.Echo.Rio
import Semestre6.Echo.Echo
import Semestre6.Synchro.Fork
import Semestre6.Synchro.Peterson
import Semestre6.Synchro.TellWait
import Semestre6.Synchro.Shm
import Semestre6.Geometrie.AlgoNaif
import Semestre6.Niveaux.Chargeur
import Semestre6.Niveaux.Ecriture
